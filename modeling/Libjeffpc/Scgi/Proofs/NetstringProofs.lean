import Libjeffpc.Lib.Numeral
import Libjeffpc.Scgi.Proofs.ScgisvcProofs

/-!
# The headers of a request arrive

A netstring that is written from a list of names and values is read back: the bytes up to its comma are
used up, however they arrive, and the headers are set in the order of the list.
-/

namespace Libjeffpc.Scgi

open Lib Libjeffpc.Tree Libjeffpc.Nvl

/-- The names and values in turn, each with its NUL. -/
def headerBlock (pairs : List (CStr × CStr)) : Bytes :=
  pairs.flatMap fun p => p.1.1 ++ 0 :: (p.2.1 ++ [0])

/-- The netstring of a block. -/
def netstring (block : Bytes) : Bytes := decimal block.length ++ 58 :: (block ++ [44])

/-- The headers after all pairs are set one after the other. -/
def setHeaders {N : Type} (pairs : List (CStr × CStr)) (map : NvMap N) : NvMap N :=
  pairs.foldl (fun m p => m.set p.1 (.str p.2)) map

/-- The last pair with a name counts. -/
theorem setHeaders_eq {N : Type} (pairs : List (CStr × CStr)) (map : NvMap N) (name : CStr) :
    setHeaders pairs map name = ((pairs.reverse.lookup name).map Value.str).or (map name) := by
  induction pairs generalizing map with
  | nil => rfl
  | cons p pairs ih =>
    show setHeaders pairs (map.set p.1 (.str p.2)) name = _
    rw [ih, List.reverse_cons, List.lookup_append, NvMap.set]
    by_cases hname : name = p.1
    · subst hname
      have hlook : [p].lookup p.1 = some p.2 := by rw [List.lookup_cons, beq_self_eq_true]
      rw [Function.update_self, hlook]
      cases pairs.reverse.lookup p.1 <;> rfl
    · have hlook : [p].lookup name = none := by
        rw [List.lookup_cons, beq_false_of_ne hname]
        rfl
      rw [Function.update_of_ne hname, hlook, Option.or_none]

/-! ## The length -/

/-- One more digit. -/
theorem decimalValue_concat (ds : Bytes) (c : UInt8) :
    decimalValue (ds ++ [c]) = decimalValue ds * 10 + digitValue c := by
  rw [decimalValue, decimalValue, List.map_append, List.reverse_append, List.map_singleton,
    List.reverse_singleton, List.singleton_append, Nat.ofDigits_cons]
  omega

section Length

variable {N A M : Type}

/-- The body of the loop of `read_netstring_length`. -/
def lengthRound (req : Req N A M) (s : UInt64 × Fd) :
    Comp ((UInt64 × Fd) ⊕ (Except Errno UInt64 × Req N A M)) :=
  match xread s.2 1 with
  | (.error e, fd) => pure (.inr (.error e, { req with fd }))
  | (.ok c, fd) =>
    match c with
    | [c] =>
      if c = 58 then pure (.inr (.ok s.1, { req with fd }))
      else if 48 ≤ c ∧ c ≤ 57 then pure (.inl (s.1 * 10 + (c - 48).toUInt64, fd))
      else pure (.inr (.error .EINVAL, { req with fd }))
    | _ => throw .bounds

theorem xread_byte {fd : Fd} {c : UInt8} {rest : Bytes} (hin : fd.input = c :: rest) :
    ∃ pieces, xread fd 1 = (.ok [c], { fd with input := rest, pieces }) := by
  obtain ⟨pieces, h⟩ := xread_spec fd 1
  rw [hin, if_pos (by simp)] at h
  exact ⟨pieces, h⟩

/-- The digits that are left are read; `pre` was read before. -/
theorem lengthLoop (req : Req N A M) {ds : Bytes} (hds : ∀ c ∈ ds, isDigit c) (pre : Bytes)
    {rest : Bytes} {fd : Fd} (hin : fd.input = ds ++ 58 :: rest) :
    ∃ pieces, loop (lengthRound req) (UInt64.ofNat (decimalValue pre), fd) =
      pure (.ok (UInt64.ofNat (decimalValue (pre ++ ds))),
        { req with fd := { fd with input := rest, pieces } }) := by
  induction ds generalizing pre fd with
  | nil =>
    obtain ⟨pieces, hread⟩ := xread_byte hin
    refine ⟨pieces, loop_done ?_⟩
    rw [lengthRound, hread, List.append_nil]
    rfl
  | cons c ds ih =>
    obtain ⟨hc, hds⟩ := List.forall_mem_cons.mp hds
    obtain ⟨pieces, hread⟩ := xread_byte hin
    have hround : lengthRound req (UInt64.ofNat (decimalValue pre), fd) =
        pure (.inl (UInt64.ofNat (decimalValue (pre ++ [c])), { fd with input := ds ++ 58 :: rest, pieces })) := by
      have h58 : c ≠ 58 := by
        rintro rfl
        exact absurd hc (by decide)
      have hrange : 48 ≤ c ∧ c ≤ 57 := by
        rw [isDigit, Bool.and_eq_true, decide_eq_true_iff, decide_eq_true_iff] at hc
        exact hc
      rw [lengthRound, hread]
      dsimp only
      rw [if_neg h58, if_pos hrange, decimalValue_concat, UInt64.ofNat_add, UInt64.ofNat_mul, digitValue,
        UInt64.ofNat_uInt8ToNat]
      rfl
    obtain ⟨pieces', hrest⟩ := ih hds (pre ++ [c])
      (rfl : ({ fd with input := ds ++ 58 :: rest, pieces } : Fd).input = ds ++ 58 :: rest)
    refine ⟨pieces', ?_⟩
    rw [loop_next hround, hrest, List.append_assoc]
    rfl

theorem readNetstringLength_spec (req : Req N A M) {len : Nat} {rest : Bytes}
    (hin : req.fd.input = decimal len ++ 58 :: rest) :
    ∃ pieces, readNetstringLength req =
      pure (.ok (UInt64.ofNat len), { req with fd := { req.fd with input := rest, pieces } }) := by
  obtain ⟨pieces, h⟩ := lengthLoop req (isDigit_decimal len) [] hin
  rw [List.nil_append, decimalValue_decimal] at h
  exact ⟨pieces, h⟩

end Length

/-! ## The block -/

section Block

variable {N A M : Type} [DecidableEq N] [DecidableEq A] [TreeMem A M] [LawfulTreeMem A M]
  (mem : Memory) (alloc : Allocator A) {σ : NvState N} {shape : N → BTree A} {headers : N}
  {l : Lists N A M} {map : NvMap N}

/-- The loop sets the pairs that are left; `pre` is behind it. -/
theorem headerLoop_pairs (hmem : ∀ k, mem.refusals k = .none) (pairs : List (CStr × CStr)) (pre : Bytes)
    (k : Nat) (hr : Related l.heap σ shape) (hn : σ headers = some map) (hc : l.coded headers = false) :
    ∃ h' shape', loop (headerRound mem alloc headers (pre ++ (headerBlock pairs ++ [0]))
        (pre ++ headerBlock pairs).length) (k, pre.length, l) = pure (.ok (), { l with heap := h' }) ∧
      Related h' (σ.modify headers (setHeaders pairs)) shape' := by
  induction pairs generalizing pre k l σ shape map with
  | nil =>
    refine ⟨l.heap, shape, headerLoop_end mem alloc _ (by simp [headerBlock]) k, ?_⟩
    have hid : σ.modify headers (setHeaders []) = σ := by
      rw [Related.modify_eq hn]
      exact Function.update_eq_self_iff.mpr hn.symm
    rwa [hid]
  | cons p pairs ih =>
    obtain ⟨s, v⟩ := p
    have hblock : headerBlock ((s, v) :: pairs) = s.1 ++ 0 :: (v.1 ++ 0 :: headerBlock pairs) := by
      simp [headerBlock]
    have hbuf : pre ++ (s.1 ++ 0 :: (v.1 ++ 0 :: headerBlock pairs) ++ [0]) =
        pre ++ (s.1 ++ 0 :: (v.1 ++ 0 :: (headerBlock pairs ++ [0]))) := by simp
    obtain ⟨-, hok, -⟩ := headerLoop_pair mem alloc headers l pre s v (headerBlock pairs ++ [0])
      (show pre.length < (pre ++ (s.1 ++ 0 :: (v.1 ++ 0 :: headerBlock pairs))).length by simp) k
    obtain ⟨h', shape', hcall, hr'⟩ := Lists.call_none alloc hr hn hc (c := ⟨s, .str v, mem.refusals k⟩) (hmem k)
    obtain ⟨h'', shape'', hloop, hr''⟩ := ih (l := { l with heap := h' })
      (pre ++ (s.1 ++ 0 :: (v.1 ++ [0]))) (k + 1) hr' (modify_self hn _) hc
    refine ⟨h'', shape'', ?_, ?_⟩
    · rw [hblock, hbuf, hok _ hcall, headerLoop_rest]
      exact hloop
    · rw [modify_modify] at hr''
      exact hr''

/-- The headers arrive as they were written: `read_netstring` uses up the netstring and nothing else, and
the nvlist of the headers has the map in which the pairs are set in their order. -/
theorem read_netstring_round_trip (req : Req N A M) (hr : Related req.heap σ shape)
    (hn : σ req.headers = some map) (hc : req.coded req.headers = false) (hmalloc : ∀ n, mem.malloc n = true)
    (hmem : ∀ k, mem.refusals k = .none) (pairs : List (CStr × CStr)) (rest : Bytes)
    (hlen : (headerBlock pairs).length + 1 < 2 ^ 63)
    (hin : req.fd.input = netstring (headerBlock pairs) ++ rest) :
    ∃ req' shape', readNetstring mem alloc req = pure (.ok (), req') ∧ req'.fd.input = rest ∧
      req'.headers = req.headers ∧ req'.coded = req.coded ∧
      Related req'.heap (σ.modify req.headers (setHeaders pairs)) shape' ∧
      Answers req'.heap req.headers fun name =>
        ((pairs.reverse.lookup name).map Value.str).or (map name) := by
  rw [netstring, List.append_assoc, List.cons_append, List.append_assoc, List.singleton_append] at hin
  obtain ⟨pieces, hlength⟩ := readNetstringLength_spec req hin
  obtain ⟨pieces', hstring⟩ := readNetstringString_run mem alloc
    { req with fd := { req.fd with input := headerBlock pairs ++ 44 :: rest, pieces } }
    (by omega) rfl (hmalloc _)
  obtain ⟨h', shape', hloop, hr'⟩ := headerLoop_pairs mem alloc hmem pairs [] 0 hr hn hc
  rw [List.nil_append, List.nil_append, List.length_nil] at hloop
  have hmap : (fun name => ((pairs.reverse.lookup name).map Value.str).or (map name)) =
      setHeaders pairs map := funext fun name => (setHeaders_eq pairs map name).symm
  let req' : Req N A M := { req with fd := { req.fd with input := rest, pieces := pieces' }, heap := h' }
  refine ⟨req', shape', ?_, rfl, rfl, rfl, hr', ?_⟩
  · rw [readNetstring, hlength, pure_bind]
    show readNetstringString mem alloc _ _ = _
    rw [hstring]
    show (loop (headerRound mem alloc req.headers _ _) (0, 0, req.toLists) >>= fun r => _) = _
    rw [hloop, pure_bind]
  · rw [hmap]
    exact hr'.answers (modify_self hn _)

end Block

/-- The request `12:A\0B\0C\0\0A\0DE\0,` and a byte of the body: `C` has an empty value, and the last value of `A`
counts. -/
theorem read_netstring_round_trip_pair : ∃ req' : Req Unit Nat (PlainMem Nat),
    readNetstring enoughMemory natAllocator
        (newReq ([49, 50, 58] ++ [65, 0, 66, 0, 67, 0, 0, 65, 0, 68, 69, 0] ++ [44, 120])) = pure (.ok (), req') ∧
      req'.fd.input = [120] ∧
      nvlLookupStr req'.heap () (cstr [65]) = pure (.ok (cstr [68, 69])) ∧
      nvlLookupStr req'.heap () (cstr [67]) = pure (.ok CStr.empty) := by
  obtain ⟨shape, hr⟩ := newReq_related ([49, 50, 58] ++ [65, 0, 66, 0, 67, 0, 0, 65, 0, 68, 69, 0] ++ [44, 120])
  obtain ⟨req', shape', hrun, hrest, -, -, -, hans⟩ := read_netstring_round_trip enoughMemory natAllocator
    (newReq ([49, 50, 58] ++ [65, 0, 66, 0, 67, 0, 0, 65, 0, 68, 69, 0] ++ [44, 120]))
    hr (Function.update_self ..) rfl (fun _ => rfl) (fun _ => rfl)
    [(cstr [65], cstr [66]), (cstr [67], CStr.empty), (cstr [65], cstr [68, 69])] [120] (by decide) (by decide)
  refine ⟨req', hrun, hrest, ?_, ?_⟩
  · exact (hans.lookupStr _).trans rfl
  · exact (hans.lookupStr _).trans rfl

end Libjeffpc.Scgi
