import Libjeffpc.Nvl.Proofs.NvMapProofs
import Libjeffpc.Scgi.Response

/-!
# What `scgi_write_headers` writes

However `write` takes the bytes, a call that returns 0 has written the line of the status, the lines of
the headers in the order of their names, and an empty line; but every line is cut to what fits in the
array, so its newline is lost when it does not fit.
-/

set_option linter.unusedSectionVars false

namespace Libjeffpc.Scgi

open Lib Libjeffpc.Tree Libjeffpc.Nvl

/-- The header section as it is meant to be. -/
def responseText (status : UInt32) (entries : List (CStr × CStr)) : Bytes :=
  statusLine status ++ (entries.flatMap fun e => headerLine e.1 e.2) ++ [ch '\n']

/-- The line of a header fits in the array, with its newline and the NUL. -/
def Fits (e : CStr × CStr) : Prop := (headerLine e.1 e.2).length < tmpSize

/-! ## Writing -/

/-- What is true after some bytes were to be written: they were, unless an error is returned, and
without a limit there is no error. -/
def Wrote (fd : OutFd) (b : Bytes) (res : Except Errno Unit × OutFd) : Prop :=
  (res.1 = .ok () → res.2.output = fd.output ++ b) ∧
    (fd.limit = none → res.1 = .ok () ∧ res.2.limit = none)

section Wrote

variable {fd fd' : OutFd} {b c : Bytes} {res : Except Errno Unit × OutFd}

theorem Wrote.trans (h : Wrote fd b (.ok (), fd')) (h' : Wrote fd' c res) : Wrote fd (b ++ c) res := by
  refine ⟨fun hok => ?_, fun hlimit => h'.2 (h.2 hlimit).2⟩
  rw [h'.1 hok, h.1 rfl, List.append_assoc]

/-- An error ends the writing. -/
theorem Wrote.error {e : Errno} (h : Wrote fd b (.error e, fd')) (c : Bytes) :
    Wrote fd c (.error e, fd') := by
  refine ⟨fun hok => ?_, fun hlimit => ?_⟩
  · cases hok
  · cases (h.2 hlimit).1

/-- One call of `write`: a part of the buffer, which is not empty. -/
theorem write_spec (fd : OutFd) {buf : Bytes} (hbuf : buf ≠ []) :
    (∃ e fd', write fd buf = (.error e, fd') ∧ fd.limit ≠ none) ∨
    (∃ n fd', write fd buf = (.ok n, fd') ∧ n ≠ 0 ∧ Wrote fd (buf.take n) (.ok (), fd')) := by
  have hpos := List.length_pos_of_ne_nil hbuf
  rw [write]
  cases hlimit : fd.limit with
  | none =>
    refine Or.inr ⟨_, _, rfl, by omega, fun _ => rfl, fun _ => ⟨rfl, rfl⟩⟩
  | some l =>
    obtain ⟨room, e⟩ := l
    by_cases hroom : room = 0
    · exact Or.inl ⟨e, _, by simp [hroom]; rfl, by simp⟩
    · refine Or.inr ⟨_, _, by simp only [if_neg hroom]; rfl, by omega, fun _ => rfl, fun hnone => ?_⟩
      rw [hlimit] at hnone
      cases hnone

theorem xwrite_spec (fd : OutFd) (buf : Bytes) : Wrote fd buf (xwrite fd buf) := by
  induction hlen : buf.length using Nat.strong_induction_on generalizing fd buf with
  | _ len ih =>
    rw [xwrite]
    by_cases hbuf : buf = []
    · subst hbuf
      exact ⟨fun _ => (List.append_nil _).symm, fun hlimit => ⟨rfl, hlimit⟩⟩
    rw [if_neg hbuf]
    rcases write_spec fd hbuf with ⟨e, fd', hrun, hlimit⟩ | ⟨n, fd', hrun, hn, hw⟩
    · rw [hrun]
      exact ⟨fun hok => (by cases hok), fun hnone => absurd hnone hlimit⟩
    · rw [hrun]
      show Wrote fd buf (if n = 0 then _ else xwrite fd' (buf.drop n))
      rw [if_neg hn]
      have hpos := List.length_pos_of_ne_nil hbuf
      have hrest := ih (buf.drop n).length (by rw [List.length_drop]; omega) fd' (buf.drop n) rfl
      have := hw.trans hrest
      rwa [List.take_append_drop] at this

theorem xwriteStr_spec (fd : OutFd) (s : CStr) : Wrote fd s.1 (xwriteStr fd s) := xwrite_spec fd s.1

end Wrote

/-! ## Formatting -/

/-- What is in the array: the text, as far as it fits. -/
theorem snprintf_eq (size : Nat) {b : Bytes} (h : (0 : UInt8) ∉ b) :
    (snprintf size b).1 = b.take (size - 1) :=
  congrArg Subtype.val (cstr_val ⟨b.take (size - 1), fun hmem => h (List.mem_of_mem_take hmem)⟩)

theorem decimal_length {n k : Nat} (hk : k ≠ 0) (h : n < 10 ^ k) : (decimal n).length ≤ k := by
  by_cases hn : n = 0
  · rw [decimal, if_pos hn, List.length_singleton]
    omega
  · rw [decimal_of_pos hn, List.length_map, List.length_reverse]
    exact (Nat.digits_length_le_iff (by decide) n).mpr h

theorem nul_notMem_statusLine (status : UInt32) : (0 : UInt8) ∉ statusLine status := by
  intro h
  rw [statusLine, List.mem_append, List.mem_append] at h
  rcases h with (h | h) | h
  · exact absurd h (by decide)
  · exact absurd (isDigit_decimal _ 0 h) (by decide)
  · exact absurd h (by decide)

theorem nul_notMem_headerLine (name value : CStr) : (0 : UInt8) ∉ headerLine name value := by
  intro h
  rw [headerLine, List.mem_append, List.mem_append, List.mem_append] at h
  rcases h with ((h | h) | h) | h
  · exact name.2 h
  · exact absurd h (by decide)
  · exact value.2 h
  · exact absurd h (by decide)

/-- The line of the status always fits. -/
theorem snprintf_statusLine (status : UInt32) :
    (snprintf tmpSize (statusLine status)).1 = statusLine status := by
  rw [snprintf_eq _ (nul_notMem_statusLine status)]
  refine List.take_of_length_le ?_
  have hlt : status.toNat < 10 ^ 10 := by
    have := status.toNat_lt
    omega
  have := decimal_length (by decide : 10 ≠ 0) hlt
  simp only [statusLine, text, tmpSize, List.length_append, List.length_map, List.length_cons,
    List.length_nil]
  omega

theorem snprintf_headerLine (e : CStr × CStr) :
    (snprintf tmpSize (headerLine e.1 e.2)).1 = (headerLine e.1 e.2).take 255 :=
  snprintf_eq _ (nul_notMem_headerLine e.1 e.2)

/-- The headers as they are written. -/
def sentHeaders (entries : List (CStr × CStr)) : Bytes :=
  entries.flatMap fun e => (headerLine e.1 e.2).take 255

/-- Only headers that fit are written in full. -/
theorem sentHeaders_length (entries : List (CStr × CStr)) :
    (sentHeaders entries).length ≤ (entries.flatMap fun e => headerLine e.1 e.2).length ∧
      ((sentHeaders entries).length = (entries.flatMap fun e => headerLine e.1 e.2).length →
        ∀ e ∈ entries, Fits e) := by
  induction entries with
  | nil => exact ⟨le_refl _, fun _ e he => by cases he⟩
  | cons e entries ih =>
    obtain ⟨hle, heq⟩ := ih
    simp only [sentHeaders] at hle heq ⊢
    rw [List.flatMap_cons, List.flatMap_cons, List.length_append, List.length_append, List.length_take]
    refine ⟨by omega, fun hlen => ?_⟩
    refine List.forall_mem_cons.mpr ⟨?_, heq (by omega)⟩
    rw [Fits, tmpSize]
    omega

theorem sentHeaders_eq_iff (entries : List (CStr × CStr)) :
    (sentHeaders entries = entries.flatMap fun e => headerLine e.1 e.2) ↔ ∀ e ∈ entries, Fits e := by
  constructor
  · intro h
    exact (sentHeaders_length entries).2 (congrArg List.length h)
  · intro hfits
    refine List.flatMap_congr fun e he => List.take_of_length_le ?_
    have := hfits e he
    rw [Fits, tmpSize] at this
    omega

/-! ## The whole call -/

section Run

variable {N A M : Type} [DecidableEq N] [DecidableEq A] [TreeMem A M] [LawfulTreeMem A M]
  {h : Heap N A M} {headers : N} {s : BTree A} {map : NvMap N}

/-- The loop writes the headers that are left, and the empty line. -/
theorem writeLoop (hh : Holds h headers s map) {todo : List A} {entries : List (CStr × CStr)}
    (hall : List.Forall₂ (fun p e => h.name p = e.1 ∧ h.value p = .str e.2) todo entries) :
    ∀ done fd, s.toList = done ++ todo → ∃ res,
      loop (writeRound h headers) (todo.head?, fd) = pure res ∧
        Wrote fd (sentHeaders entries ++ [ch '\n']) res := by
  induction hall with
  | nil =>
    intro done fd _
    exact ⟨_, loop_done rfl, xwriteStr_spec fd (cstr [ch '\n'])⟩
  | @cons p e todo entries hpe _ ih =>
    intro done fd hdone
    obtain ⟨hname, hvalue⟩ := hpe
    have hline := xwriteStr_spec fd (snprintf tmpSize (headerLine e.1 e.2))
    rw [snprintf_headerLine] at hline
    have hsent : sentHeaders (e :: entries) ++ [ch '\n'] =
        (headerLine e.1 e.2).take 255 ++ (sentHeaders entries ++ [ch '\n']) := by
      simp only [sentHeaders, List.flatMap_cons, List.append_assoc]
    rw [hsent]
    rcases hres : xwriteStr fd (snprintf tmpSize (headerLine e.1 e.2)) with ⟨_ | _, fd'⟩
    · rw [hres] at hline
      refine ⟨_, loop_done ?_, hline.error _⟩
      simp only [writeRound, List.head?_cons, hvalue, hname, nvpairValueStr, nvpairValue, Value.str?, hres]
    · rw [hres] at hline
      have hnext : writeRound h headers ((p :: todo).head?, fd) = pure (.inl (todo.head?, fd')) := by
        simp only [writeRound, List.head?_cons, hvalue, hname, nvpairValueStr, nvpairValue, Value.str?,
          hres, hh.iterNext hdone, pure_bind]
      obtain ⟨res, hrun, hw⟩ := ih (done ++ [p]) fd' (by rw [hdone, List.append_assoc]; rfl)
      exact ⟨res, (loop_next hnext).trans hrun, hline.trans hw⟩

/-- What a call writes. -/
theorem scgiWriteHeaders_run (hh : Holds h headers s map) {entries : List (CStr × CStr)}
    (hsorted : Assoc.Sorted strcmp entries)
    (hmap : ∀ name, map name = (entries.lookup name).map Value.str) (status : UInt32) (fd : OutFd) :
    ∃ res, scgiWriteHeaders status h headers fd = pure res ∧
      Wrote fd (statusLine status ++ sentHeaders entries ++ [ch '\n']) res := by
  have hall : List.Forall₂ (fun p e => h.name p = e.1 ∧ h.value p = .str e.2) s.toList entries := by
    refine hh.forall₂ (R := fun v w => v = .str w) hsorted
      (fun name => by rw [hmap, Option.map_eq_none_iff]) ?_
    intro name v w hv hw
    rw [hmap, hw] at hv
    exact (Option.some.inj hv).symm
  have hstatus := xwriteStr_spec fd (snprintf tmpSize (statusLine status))
  rw [snprintf_statusLine] at hstatus
  rw [scgiWriteHeaders, List.append_assoc]
  rcases hres : xwriteStr fd (snprintf tmpSize (statusLine status)) with ⟨_ | _, fd'⟩
  · rw [hres] at hstatus
    exact ⟨_, rfl, hstatus.error _⟩
  · rw [hres] at hstatus
    obtain ⟨res, hrun, hw⟩ := writeLoop hh hall [] fd' rfl
    refine ⟨res, ?_, hstatus.trans hw⟩
    dsimp only
    rw [hh.iterStart, pure_bind, hrun]

/-- A call that returns 0 has written the header section exactly if the line of every header fits in the
array; it returns 0 unless `write` fails. -/
theorem scgi_write_headers_iff {σ : NvState N} {shape : N → BTree A} (hr : Related h σ shape)
    (hn : σ headers = some map) (entries : List (CStr × CStr)) (hsorted : Assoc.Sorted strcmp entries)
    (hmap : ∀ name, map name = (entries.lookup name).map Value.str) (status : UInt32) (fd : OutFd) :
    ∃ r fd', scgiWriteHeaders status h headers fd = pure (r, fd') ∧
      (fd.limit = none → r = .ok ()) ∧
      (r = .ok () →
        (fd'.output = fd.output ++ responseText status entries ↔ ∀ e ∈ entries, Fits e)) := by
  obtain ⟨⟨r, fd'⟩, hrun, hw⟩ := scgiWriteHeaders_run (hr.holds headers map hn) hsorted hmap status fd
  refine ⟨r, fd', hrun, fun hlimit => (hw.2 hlimit).1, fun hok => ?_⟩
  rw [hw.1 hok, responseText, List.append_cancel_left_eq, List.append_cancel_right_eq,
    List.append_cancel_left_eq, sentHeaders_eq_iff]

end Run

/-- A file descriptor that takes one byte after the other. -/
def slowFd : OutFd := { output := [], limit := none, pieces := fun _ => 0 }

theorem scgi_write_headers_iff_two : ∃ h : Heap Unit Nat (PlainMem Nat),
    execRun natAllocator (Heap.empty Unit (freshMem Nat))
        [.alloc (), .set () (cstr (text ['C'])) (.str (cstr (text ['d']))),
          .set () (cstr (text ['A'])) (.str (cstr (text ['b'])))] = pure ([.ok (), .ok (), .ok ()], h) ∧
      ∃ fd', scgiWriteHeaders 200 h () slowFd = pure (.ok (), fd') ∧
        fd'.output = responseText 200
          [(cstr (text ['A']), cstr (text ['b'])), (cstr (text ['C']), cstr (text ['d']))] := by
  obtain ⟨h, σ, map, shape, hbuilt, hr, hn, hmap⟩ := setStrings_run
    [(cstr (text ['C']), cstr (text ['d'])), (cstr (text ['A']), cstr (text ['b']))] (by decide)
  have hsorted : Assoc.Sorted strcmp
      [(cstr (text ['A']), cstr (text ['b'])), (cstr (text ['C']), cstr (text ['d']))] :=
    List.pairwise_pair.mpr (by decide)
  have hentries : ∀ name, map name = ([(cstr (text ['A']), cstr (text ['b'])),
      (cstr (text ['C']), cstr (text ['d']))].lookup name).map Value.str := by
    intro name
    rw [hmap]
    by_cases hA : name = cstr (text ['A'])
    · subst hA
      rfl
    · by_cases hC : name = cstr (text ['C'])
      · subst hC
        rfl
      · simp only [List.lookup_cons, beq_false_of_ne hA, beq_false_of_ne hC]
  obtain ⟨r, fd', hrun, hok, hout⟩ := scgi_write_headers_iff hr hn _ hsorted hentries 200 slowFd
  obtain rfl := hok rfl
  refine ⟨h, hbuilt, fd', hrun, ((hout rfl).mpr ?_).trans (List.nil_append _)⟩
  intro e he
  rw [List.mem_pair] at he
  rcases he with rfl | rfl
  · show (headerLine (cstr (text ['A'])) (cstr (text ['b']))).length < tmpSize
    decide
  · show (headerLine (cstr (text ['C'])) (cstr (text ['d']))).length < tmpSize
    decide

/-- A value of 300 bytes. -/
def longValue : CStr := ⟨List.replicate 300 (ch 'a'), fun h => absurd (List.eq_of_mem_replicate h) (by decide)⟩

/-- A long value is cut, and the newline after it is lost. -/
theorem scgi_write_headers_cut : ∃ h : Heap Unit Nat (PlainMem Nat),
    execRun natAllocator (Heap.empty Unit (freshMem Nat))
        [.alloc (), .set () (cstr (text ['A'])) (.str longValue)] = pure ([.ok (), .ok ()], h) ∧
      ∃ fd', scgiWriteHeaders 200 h () slowFd = pure (.ok (), fd') ∧
        fd'.output ≠ responseText 200 [(cstr (text ['A']), longValue)] := by
  obtain ⟨h, σ, map, shape, hbuilt, hr, hn, hmap⟩ :=
    setStrings_run [(cstr (text ['A']), longValue)] (List.nodup_singleton _)
  obtain ⟨⟨r, fd'⟩, hrun, hw⟩ :=
    scgiWriteHeaders_run (hr.holds () map hn) (List.pairwise_singleton _ _) hmap 200 slowFd
  have hok : r = .ok () := (hw.2 rfl).1
  subst hok
  refine ⟨h, hbuilt, fd', hrun, fun hout => ?_⟩
  have hall : sentHeaders [(cstr (text ['A']), longValue)] =
      [(cstr (text ['A']), longValue)].flatMap fun e => headerLine e.1 e.2 := by
    have heq := (hw.1 rfl).symm.trans hout
    rw [responseText] at heq
    exact List.append_cancel_left (List.append_cancel_right heq)
  have hfits := (sentHeaders_eq_iff _).mp hall _ (List.mem_singleton_self _)
  have hlen : (headerLine (cstr (text ['A'])) longValue).length = 304 := by
    have hname : (cstr (text ['A'])).1.length = 1 := by decide
    have hsep : (text [':', ' ']).length = 2 := rfl
    have hvalue : longValue.1.length = 300 := List.length_replicate
    rw [headerLine, List.length_append, List.length_append, List.length_append, hname, hsep, hvalue,
      List.length_singleton]
  rw [Fits, hlen, tmpSize] at hfits
  omega

end Libjeffpc.Scgi
