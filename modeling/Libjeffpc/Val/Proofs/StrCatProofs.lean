import Libjeffpc.Val.Proofs.HeapProofs
import Libjeffpc.Val.StrCat

/-!
# Concatenation of strings

The first loop adds up the lengths of what the second one writes. While it writes, the buffer is what has
been written, a NUL, and room for the rest. A single NULL is looked into.
-/

namespace Libjeffpc.Heap

open Lib Libjeffpc.Lib.RcHeap

variable {h h' : RcHeap Obj} {owned vals : List Pointer} {texts : List Bytes} {p : Pointer} {t : Bytes}

theorem run_pure {α β : Type} {f : Comp α} {r : α} {g : α → HeapM β} {s : State} (hf : f = pure r) :
    ((liftM f : HeapM α) >>= g) s = g r s := by
  subst hf
  rfl

theorem assert_granted {β : Type} {g : Unit → HeapM β} {s : State} :
    ((liftM (assert true) : HeapM Unit) >>= g) s = g () s := rfl

theorem run_throw {α β : Type} {f : HeapM α} {g : α → HeapM β} {s : State} {e : Fault} (hf : f s = throw e) :
    (f >>= g) s = throw e := by
  show (f s >>= fun x => g x.1 x.2) = _
  rw [hf]
  rfl

/-! ## Arguments -/

theorem ArgText.nul (ha : ArgText h p t) : 0 ∉ t := by
  cases ha with
  | null => simp
  | @str _ s hp => exact s.2
  | @sym _ s hp => exact s.2

/-- An argument that is still owned has its text. -/
theorem ArgText.keep {owned' : List Pointer} (ha : ArgText h p t) (hb : Balanced h owned) (hk : Keeps h h')
    (hb' : Balanced h' owned') (hm : p ∈ owned') : ArgText h' p t := by
  have hlive : ∀ a, p = .obj a → ∃ c, h'.live a = some c := fun a he => hb'.live_of_owned (he ▸ hm)
  cases ha with
  | null => exact .null
  | str hp => exact .str (hp.keep hb hk hlive)
  | sym hp => exact .sym (hp.keep hb hk hlive)

theorem argTexts_keep {owned' : List Pointer} (ha : List.Forall₂ (ArgText h) vals texts) (hb : Balanced h owned)
    (hk : Keeps h h') (hb' : Balanced h' (vals ++ owned')) : List.Forall₂ (ArgText h') vals texts := by
  have hmem : ∀ p ∈ vals, p ∈ vals ++ owned' := fun p hp => List.mem_append_left _ hp
  generalize vals ++ owned' = l at hb' hmem
  induction ha with
  | nil => exact .nil
  | cons hp _ ih =>
    exact .cons (hp.keep hb hk hb' (hmem _ List.mem_cons_self)) (ih fun q hq => hmem q (List.mem_cons_of_mem _ hq))

theorem ArgText.cstr (ha : ArgText h p t) (hn : p ≠ .null) : ∃ s : CStr, Reads (valCstr p) h s ∧ s.1 = t := by
  cases ha with
  | null => exact absurd rfl hn
  | str hp => exact ⟨_, (load_reads hp).then (reads_pure _), rfl⟩
  | sym hp => exact ⟨_, (load_reads hp).then (reads_pure _), rfl⟩

theorem ArgText.of_null (ha : ArgText h .null t) : t = [] := by
  cases ha with
  | null => rfl
  | str hp => exact hp.elim
  | sym hp => exact hp.elim

/-! ## Lengths -/

theorem catLengths_reads (ha : List.Forall₂ (ArgText h) vals texts) :
    ∀ n < 2 ^ 64, Reads (catLengths vals n) h (texts.map List.length, (n + texts.flatten.length) % 2 ^ 64) := by
  induction ha with
  | nil =>
    intro n hn g
    rw [List.flatten_nil, List.length_nil, Nat.add_zero, Nat.mod_eq_of_lt hn]
    rfl
  | @cons p t vals texts hp _ ih =>
    intro n hn g
    rw [catLengths]
    by_cases hnull : p = .null
    · subst hnull
      obtain rfl := hp.of_null
      rw [if_pos rfl, (ih n hn).bind]
      rfl
    · obtain ⟨s, hread, rfl⟩ := hp.cstr hnull
      have hlen : Reads (getLen p) h s.1.length := hread.then (reads_pure _)
      rw [if_neg hnull, hlen.bind, (ih _ (Nat.mod_lt _ (by norm_num))).bind]
      rw [List.flatten_cons, List.length_append, Nat.mod_add_mod, Nat.add_assoc]
      rfl

/-! ## Writing -/

theorem strcpy_eq {done rest : Bytes} {s : CStr} (hlen : s.1.length ≤ rest.length) :
    strcpy (done ++ 0 :: rest) done.length s = pure ((done ++ s.1) ++ 0 :: rest.drop s.1.length) := by
  rw [strcpy, if_pos (by simp; omega), List.take_left, List.drop_length_add_append, List.drop_succ_cons,
    List.append_assoc]

theorem strcpy_length {buf buf' : Bytes} {out : Nat} {s : CStr} (hs : strcpy buf out s = pure buf') :
    buf'.length = buf.length := by
  rw [strcpy] at hs
  split_ifs at hs with hle
  · obtain rfl := pure_inj hs
    simp
    omega
  · cases hs

/-- The bytes of all arguments are written one after the other. -/
theorem catCopy_fits (ha : List.Forall₂ (ArgText h) vals texts) :
    ∀ {done rest : Bytes}, Balanced h (vals ++ owned) → rest.length = texts.flatten.length →
    ∃ h', Balanced h' owned ∧ ∀ g, catCopy (vals.zip (texts.map List.length)) done.length (done ++ 0 :: rest) ⟨h, g⟩ =
      pure (done ++ texts.flatten ++ [0], ⟨h', g⟩) := by
  induction vals generalizing h texts with
  | nil =>
    intro done rest hb hlen
    cases ha
    obtain rfl : rest = [] := List.eq_nil_of_length_eq_zero hlen
    refine ⟨h, hb, fun g => ?_⟩
    simp [catCopy]
    rfl
  | cons p vals ih =>
    intro done rest hb hlen
    cases ha with
    | @cons _ t _ texts hp hrest =>
    by_cases hnull : p = .null
    · subst hnull
      obtain rfl := hp.of_null
      obtain ⟨h', hb', hrun⟩ := ih hrest (balanced_null.mp hb) hlen
      exact ⟨h', hb', hrun⟩
    · obtain ⟨s, hread, rfl⟩ := hp.cstr hnull
      rw [List.flatten_cons, List.length_append] at hlen
      obtain ⟨h1, hput, hb1, hk⟩ := valPutref_eq hb
      have hrest1 := argTexts_keep hrest hb hk hb1
      obtain ⟨h', hb', hrun⟩ := @ih h1 texts hrest1 (done ++ s.1) (rest.drop s.1.length) hb1
        (by rw [List.length_drop]; omega)
      refine ⟨h', hb', fun g => ?_⟩
      rw [List.map_cons, List.zip_cons_cons, catCopy, if_neg hnull, hread.bind,
        run_pure (strcpy_eq (by omega)), bind_run (hput g), ← List.length_append, hrun, List.flatten_cons]
      simp only [List.append_assoc]

/-- A buffer that is too small is left. -/
theorem catCopy_overflows (ha : List.Forall₂ (ArgText h) vals texts) :
    ∀ {out : Nat} {buf : Bytes} (g : Nat → Bool), Balanced h (vals ++ owned) →
    buf.length < out + (texts.flatten.length + 1) → texts.flatten ≠ [] →
    catCopy (vals.zip (texts.map List.length)) out buf ⟨h, g⟩ = throw .bounds := by
  induction vals generalizing h texts with
  | nil =>
    intro out buf g _ _ hne
    cases ha
    exact absurd rfl hne
  | cons p vals ih =>
    intro out buf g hb hlen hne
    cases ha with
    | @cons _ t _ texts hp hrest =>
    by_cases hnull : p = .null
    · subst hnull
      obtain rfl := hp.of_null
      exact ih hrest g (balanced_null.mp hb) hlen hne
    · obtain ⟨s, hread, rfl⟩ := hp.cstr hnull
      rw [List.flatten_cons, List.length_append] at hlen
      rw [List.map_cons, List.zip_cons_cons, catCopy, if_neg hnull, hread.bind]
      by_cases hfit : out + (s.1.length + 1) ≤ buf.length
      · have hcpy : strcpy buf out s = pure (buf.take out ++ (s.1 ++ 0 :: buf.drop (out + (s.1.length + 1)))) :=
          if_pos hfit
        obtain ⟨h1, hput, hb1, hk⟩ := valPutref_eq hb
        rw [run_pure hcpy, bind_run (hput g)]
        refine ih (argTexts_keep hrest hb hk hb1) g hb1 ?_ ?_
        · rw [strcpy_length hcpy]
          omega
        · intro hnil
          rw [hnil, List.length_nil] at hlen
          omega
      · refine run_throw (f := liftM (strcpy buf out s)) ?_
        rw [strcpy, if_neg hfit]
        rfl

/-! ## The string -/

theorem strAlloc_cases (buf : Bytes) (hb : Balanced h owned) (g : Nat → Bool) :
    (∃ r h' g', strAlloc buf ⟨h, g⟩ = pure (r, ⟨h', g'⟩) ∧ Holds h' r (.str (cstr buf)) ∧ Balanced h' (r :: owned)) ∨
      ((∃ k < strAllocRequests (cstr buf), g k = false) ∧
        ∃ h' g', strAlloc buf ⟨h, g⟩ = pure (.err .ENOMEM, ⟨h', g'⟩)) := by
  rw [strAlloc, strAllocRequests]
  split_ifs
  · exact .inl ⟨_, h, g, rfl, rfl, balanced_static hb _⟩
  · exact (Allocates.valAlloc rfl hb).cases g

/-! ## `str_cat` -/

/-- The assertion of STR_ALLOC and STR_DUP. -/
theorem assert_ok {r : Pointer} {s : State} {β : Type} {g : Unit → HeapM β} (hr : r.isErr = false) :
    ((liftM (assert (!r.isErr)) : HeapM Unit) >>= g) s = g () s := run_pure (by rw [hr]; rfl)

theorem assert_err {s : State} {β : Type} {g : Unit → HeapM β} :
    ((liftM (assert (!(Ptr.err Errno.ENOMEM : Pointer).isErr)) : HeapM Unit) >>= g) s = throw .assert :=
  run_throw rfl

theorem flatten_nul (ha : List.Forall₂ (ArgText h) vals texts) : 0 ∉ texts.flatten := by
  induction ha with
  | nil => simp
  | cons hp _ ih =>
    rw [List.flatten_cons, List.mem_append]
    exact not_or.mpr ⟨hp.nul, ih⟩

theorem cstr_flatten (ha : List.Forall₂ (ArgText h) vals texts) : (cstr (texts.flatten ++ [0])).1 = texts.flatten := by
  rw [cstr_append_nul]
  exact congrArg Subtype.val (cstr_val ⟨texts.flatten, flatten_nul ha⟩)

/-- Two arguments and more, with lengths that can be added. -/
theorem strCatMany_fits (junk : Nat → UInt8) (ha : List.Forall₂ (ArgText h) vals texts)
    (hb : Balanced h (vals ++ owned)) (hlen : texts.flatten.length + 1 < 2 ^ 64) (g : Nat → Bool) :
    (∃ r s t, strCatMany junk vals ⟨h, g⟩ = pure (r, s) ∧ Holds s.heap r (.str t) ∧ t.1 = texts.flatten ∧
      Balanced s.heap (r :: owned)) ∨
    (strCatMany junk vals ⟨h, g⟩ = throw .assert ∧
      ∃ k < strAllocRequests (cstr texts.flatten) + 1, g k = false) := by
  have hlens := catLengths_reads ha 0 (by norm_num)
  rw [Nat.zero_add, Nat.mod_eq_of_lt (by omega)] at hlens
  rw [strCatMany, hlens.bind]
  simp only
  cases hg : g 0 with
  | false =>
    refine .inr ⟨?_, 0, Nat.succ_pos _, hg⟩
    rw [bind_run (request_answer hg)]
    exact run_throw rfl
  | true =>
    have hsize : (texts.flatten.length + 1) % 2 ^ 64 = texts.flatten.length + 1 := Nat.mod_eq_of_lt hlen
    obtain ⟨x, rest, hbuf⟩ : ∃ x rest, (List.range (texts.flatten.length + 1)).map junk = x :: rest :=
      ⟨_, _, by rw [List.range_succ_eq_map, List.map_cons]⟩
    have hrest : rest.length = texts.flatten.length := by
      have := congrArg List.length hbuf
      simpa using this.symm
    have hstore : store (x :: rest) 0 0 = pure (0 :: rest) := if_pos (Nat.succ_pos _)
    obtain ⟨h1, hb1, hcopy⟩ := @catCopy_fits _ _ _ _ ha [] _ hb hrest
    rw [List.nil_append, List.nil_append, List.length_nil] at hcopy
    rw [bind_run (request_answer hg), assert_granted, hsize, hbuf, run_pure hstore]
    rw [bind_run (hcopy _)]
    rcases strAlloc_cases (texts.flatten ++ [0]) hb1 fun k => g (k + 1) with
      ⟨r, h2, g2, hrun, hp, hb2⟩ | ⟨⟨k, hlt, hk⟩, h2, g2, hrun⟩
    · refine .inl ⟨r, ⟨h2, g2⟩, _, ?_, hp, cstr_flatten ha, hb2⟩
      rw [bind_run hrun, assert_ok hp.ref.1]
      rfl
    · rw [cstr_append_nul] at hlt
      refine .inr ⟨?_, k + 1, Nat.succ_lt_succ hlt, hk⟩
      rw [bind_run hrun, assert_err]

/-- Lengths that cannot be added: the buffer is too small. -/
theorem strCatMany_overflows (junk : Nat → UInt8) (ha : List.Forall₂ (ArgText h) vals texts)
    (hb : Balanced h (vals ++ owned)) (hlen : ¬ texts.flatten.length + 1 < 2 ^ 64) :
    strCatMany junk vals ⟨h, fun _ => true⟩ = throw .bounds := by
  have hlens := catLengths_reads ha 0 (by norm_num)
  rw [Nat.zero_add] at hlens
  rw [strCatMany, hlens.bind]
  simp only
  rw [bind_run (request_answer rfl), assert_granted]
  have hsize : ((List.range ((texts.flatten.length % 2 ^ 64 + 1) % 2 ^ 64)).map junk).length < 2 ^ 64 := by
    rw [List.length_map, List.length_range]
    exact Nat.mod_lt _ (by norm_num)
  generalize (List.range ((texts.flatten.length % 2 ^ 64 + 1) % 2 ^ 64)).map junk = buf at hsize
  by_cases hpos : 0 < buf.length
  · have hstore : store buf 0 0 = pure (buf.set 0 0) := if_pos hpos
    rw [run_pure hstore]
    refine run_throw (catCopy_overflows ha _ hb ?_ fun hnil => ?_)
    · rw [List.length_set]
      omega
    · rw [hnil] at hlen
      exact hlen (by norm_num)
  · refine run_throw (f := liftM (store buf 0 0)) ?_
    rw [store, if_neg hpos]
    rfl

theorem strCat_many (junk : Nat → UInt8) (p q : Pointer) (rest : List Pointer) :
    strCat junk (p :: q :: rest) = strCatMany junk (p :: q :: rest) := rfl

/-- One string or symbol. -/
theorem strCat_one (junk : Nat → UInt8) (ha : ArgText h p t) (hnull : p ≠ .null) (hb : Balanced h (p :: owned))
    (g : Nat → Bool) :
    (∃ r s u, strCat junk [p] ⟨h, g⟩ = pure (r, s) ∧ Holds s.heap r (.str u) ∧ u.1 = t ∧
      Balanced s.heap (r :: owned)) ∨
    (strCat junk [p] ⟨h, g⟩ = throw .assert ∧ ∃ k < strDupRequests (cstr t), g k = false) := by
  cases ha with
  | null => exact absurd rfl hnull
  | @str _ s hp =>
    refine .inl ⟨p, ⟨h, g⟩, s, ?_, hp, rfl, hb⟩
    rw [strCat, (load_reads hp).bind]
    rfl
  | @sym _ s hp =>
    have hcstr : Reads (valCstr p) h s := (load_reads hp).then (reads_pure _)
    rw [strCat, (load_reads hp).bind]
    simp only
    rw [hcstr.bind]
    rcases (strDup_allocates s hb).cases g with ⟨r, h1, g1, hrun, hr, hb1⟩ | ⟨hg, h1, g1, hrun⟩
    · have hb1' : Balanced h1 (p :: r :: owned) := hb1.perm (List.Perm.swap _ _ _)
      obtain ⟨h2, hput, hb2, hk⟩ := valPutref_eq hb1'
      refine .inl ⟨r, ⟨h2, g1⟩, s, ?_, ?_, rfl, hb2⟩
      · rw [bind_run hrun, assert_ok hr.ref.1, bind_run (hput g1)]
        rfl
      · exact hr.keep hb1 hk fun a he => hb2.live_of_owned (he ▸ List.mem_cons_self)
    · rw [cstr_val]
      refine .inr ⟨?_, hg⟩
      rw [bind_run hrun, assert_err]

/-- One NULL is looked into. -/
theorem strCat_null (junk : Nat → UInt8) (g : Nat → Bool) : strCat junk [.null] ⟨h, g⟩ = throw .null := by
  rw [strCat]
  exact run_throw rfl

theorem str_cat_iff (h : RcHeap Obj) (owned vals : List Pointer) (texts : List Bytes)
    (ha : List.Forall₂ (ArgText h) vals texts) (hb : Balanced h (vals ++ owned)) :
    Concatenates h owned vals texts ↔
      vals ≠ [.null] ∧ (2 ≤ vals.length → texts.flatten.length + 1 < 2 ^ 64) := by
  have hgrants : ∀ k, (fun _ : Nat => true) k ≠ false := fun _ => Bool.noConfusion
  constructor
  · intro hc
    refine ⟨?_, ?_⟩
    · rintro rfl
      rcases hc (fun _ => 0) fun _ => true with ⟨r, s, t, hrun, -⟩ | ⟨-, k, -, hk⟩
      · rw [strCat_null] at hrun
        cases hrun
      · exact hgrants k hk
    · intro hlen
      by_contra hbig
      match vals, hlen with
      | p :: q :: rest, _ =>
        rcases hc (fun _ => 0) fun _ => true with ⟨r, s, t, hrun, -⟩ | ⟨-, k, -, hk⟩
        · rw [strCat_many, strCatMany_overflows _ ha hb hbig] at hrun
          cases hrun
        · exact hgrants k hk
  · rintro ⟨hnull, hlen⟩ junk g
    match vals, ha, hb, hnull, hlen with
    | [], ha, hb, _, _ =>
      cases ha
      exact .inl ⟨_, ⟨h, g⟩, CStr.empty, rfl, rfl, rfl, balanced_static hb _⟩
    | [p], .cons hp .nil, hb, hnull, _ =>
      rw [List.flatten_cons, List.flatten_nil, List.append_nil]
      exact strCat_one junk hp (fun he => hnull (congrArg (fun x => [x]) he)) hb g
    | p :: q :: rest, .cons hp (.cons hq ha), hb, _, hlen =>
      exact strCatMany_fits junk (.cons hp (.cons hq ha)) hb (hlen (by simp)) g

/-- The symbol a, NULL and the string b. -/
theorem str_cat_iff_ab :
    Concatenates ⟨0, fun _ => none⟩ [] [.static (.sym ⟨[97], by decide⟩), .null, .static (.str ⟨[98], by decide⟩)]
      [[97], [], [98]] := by
  have ha : ArgText ⟨0, fun _ => none⟩ (.static (.sym ⟨[97], by decide⟩)) [97] := .sym (s := ⟨[97], by decide⟩) rfl
  have hb : ArgText ⟨0, fun _ => none⟩ (.static (.str ⟨[98], by decide⟩)) [98] := .str (s := ⟨[98], by decide⟩) rfl
  refine (str_cat_iff _ _ _ _ (.cons ha (.cons .null (.cons hb .nil))) ?_).mpr ⟨by simp, fun _ => by simp⟩
  exact balanced_static (balanced_null.mpr (balanced_static balanced_empty _)) _

/-- NULL alone. -/
theorem str_cat_null : ¬ Concatenates ⟨0, fun _ => none⟩ [] [.null] [[]] := by
  intro hc
  rcases hc (fun _ => 0) fun _ => true with ⟨r, s, t, hrun, -⟩ | ⟨-, k, -, hk⟩
  · rw [strCat_null] at hrun
    cases hrun
  · cases hk

end Libjeffpc.Heap
