import Libjeffpc.Nvl.Proofs.ConvertProofs
import Libjeffpc.Scgi.Content
import Libjeffpc.Scgi.Proofs.NetstringProofs

/-!
# Sizes that wrap around

The buffers of a request are large enough unless a length is the largest `size_t`, and the length of the
netstring is the number before the colon unless that number does not fit in a `size_t`.
-/

set_option linter.unusedSectionVars false

namespace Libjeffpc.Scgi

open Lib Libjeffpc.Tree Libjeffpc.Nvl Libjeffpc.Int

/-! ## Buffers -/

theorem toNat_succ (len : UInt64) : (len + 1).toNat = if len.toNat = 2 ^ 64 - 1 then 0 else len.toNat + 1 := by
  have hlt := len.toNat_lt
  rw [UInt64.toNat_add]
  split_ifs <;> simp <;> omega

theorem netstringExtent_inside (len : UInt64) : (netstringExtent len).Inside ↔ len.toNat ≠ 2 ^ 64 - 1 := by
  rw [Extent.Inside, netstringExtent, toNat_succ]
  have hlt := len.toNat_lt
  split_ifs <;> simp <;> omega

theorem bodyExtent_inside (len : UInt64) : (bodyExtent len).Inside ↔ len.toNat ≠ 2 ^ 64 - 1 := by
  rw [Extent.Inside, bodyExtent, toNat_succ]
  have hlt := len.toNat_lt
  split_ifs <;> simp <;> omega

/-- What arrives is no more than what was asked for. -/
theorem xread_arrived (fd : Fd) (n : Nat) : fd.input.length - (xread fd n).2.input.length ≤ n := by
  obtain ⟨pieces, hread⟩ := xread_spec fd n
  rw [hread]
  split_ifs with hn
  · show fd.input.length - (fd.input.drop n).length ≤ n
    rw [List.length_drop]
    omega
  · show fd.input.length - 0 ≤ n
    omega

/-- Nothing is touched outside of a buffer that is large enough. -/
theorem readInto_inside (mem : Memory) (fd : Fd) {e : Extent} (he : e.Inside) :
    ∃ r fd', readInto mem fd e = pure (r, fd') := by
  have harrived := (xread_arrived fd e.nbyte).trans he.2
  rw [readInto]
  cases mem.malloc e.size with
  | false => exact ⟨_, _, rfl⟩
  | true =>
    rcases hread : xread fd e.nbyte with ⟨_ | buf, fd'⟩
    · rw [hread] at harrived
      exact ⟨_, fd', by simp only [Bool.not_true, Bool.false_eq_true, if_false, not_lt.mpr harrived]; rfl⟩
    · rw [hread] at harrived
      exact ⟨.ok buf, fd', by
        simp only [Bool.not_true, Bool.false_eq_true, if_false, not_lt.mpr harrived, he.1, if_true]⟩

section String

variable {N A M : Type} [DecidableEq N] [DecidableEq A] [TreeMem A M] (mem : Memory) (alloc : Allocator A)

theorem readInto_netstring (fd : Fd) (len : UInt64) (hmem : ¬(!mem.malloc (len + 1).toNat) = true) :
    readInto mem fd (netstringExtent len) =
      match (xread fd (len + 1).toNat).1 with
      | .error err => pure (.error err, (xread fd (len + 1).toNat).2)
      | .ok buf =>
        if len.toNat < (len + 1).toNat then pure (.ok buf, (xread fd (len + 1).toNat).2)
        else throw .bounds :=
  (if_neg hmem).trans (if_neg (not_lt.mpr (xread_arrived fd (len + 1).toNat)))

/-- `read_netstring_string` reads into the buffer that `netstringExtent` describes. -/
theorem readNetstringString_eq (req : Req N A M) (len : UInt64) :
    readNetstringString mem alloc req len = (do
      match ← readInto mem req.fd (netstringExtent len) with
      | (.error e, fd) => pure (.error e, { req with fd })
      | (.ok buf, fd) =>
        if buf[len.toNat]? ≠ some 44 then pure (.error .EINVAL, { req with fd })
        else do
          let buf := buf.set len.toNat 0
          let (r, toLists) ← loop (headerRound mem alloc req.headers buf len.toNat) (0, 0, req.toLists)
          pure (r, { req with fd, toLists })) := by
  rw [readNetstringString]
  by_cases hmem : (!mem.malloc (len + 1).toNat) = true
  · have hinto : readInto mem req.fd (netstringExtent len) = pure (.error .ENOMEM, req.fd) := if_pos hmem
    rw [hinto, pure_bind]
    exact if_pos hmem
  obtain ⟨pieces, hread⟩ := xread_spec req.fd (len + 1).toNat
  rw [readInto_netstring mem req.fd len hmem, if_neg hmem, hread]
  by_cases hlen : (len + 1).toNat ≤ req.fd.input.length
  · rw [if_pos hlen]
    dsimp only
    by_cases hlast : len.toNat < (len + 1).toNat
    · have hget : len.toNat < (req.fd.input.take (len + 1).toNat).length := by
        rw [List.length_take]
        omega
      obtain ⟨c, hc⟩ : ∃ c, (req.fd.input.take (len + 1).toNat)[len.toNat]? = some c :=
        ⟨_, List.getElem?_eq_getElem hget⟩
      rw [if_pos hlast, pure_bind]
      simp only [hc, ne_eq, Option.some.injEq]
    · have hnone : (req.fd.input.take (len + 1).toNat)[len.toNat]? = none := by
        rw [List.getElem?_eq_none_iff, List.length_take]
        omega
      rw [if_neg hlast, hnone]
      rfl
  · rw [if_neg hlen]
    rfl

/-- The body is read without a fault if the buffer is large enough. -/
theorem scgiReadBody_inside (req : Request N A M) (h : (bodyExtent req.contentLength).Inside) :
    ∃ r req', scgiReadBody mem req = pure (r, req') := by
  rw [scgiReadBody]
  split_ifs with hzero
  · exact ⟨_, _, rfl⟩
  · obtain ⟨r, fd, hread⟩ := readInto_inside mem req.fd h
    rw [hread, pure_bind]
    cases r with
    | error e => exact ⟨_, _, rfl⟩
    | ok buf => exact ⟨_, _, rfl⟩

end String

/-! ## The header -/

section Ints

variable {N : Type} {conv : CStr → Except Errno Nat} {enomem : Nat → Bool} {map : NvMap N}

/-- What rows that ask for numbers leave behind if there is no error. -/
theorem specConvert_ints {names : List CStr} (hnd : names.Nodup) (k : Nat)
    (hok : (specConvert conv enomem false (names.map intRow) k map).1 = .ok ()) :
    ∀ name ∈ names, (map name = none ∧
        (specConvert conv enomem false (names.map intRow) k map).2 name = none) ∨
      ∃ str n, map name = some (.str str) ∧ conv str = .ok n ∧
        (specConvert conv enomem false (names.map intRow) k map).2 name = some (.int (UInt64.ofNat n)) := by
  induction names generalizing k map with
  | nil => exact nofun
  | cons x names ih =>
    obtain ⟨hx, hnd⟩ := List.nodup_cons.mp hnd
    -- the rows after the first one do not touch its name
    have hafter : ∀ (map' : NvMap N), (specConvert conv enomem false (names.map intRow) (k + 1) map').2 x =
        map' x := by
      refine fun map' => specConvert_keeps _ _ _ _ _ (Or.inl fun info hi => ?_)
      obtain ⟨y, hy, rfl⟩ := List.mem_map.mp hi
      rintro rfl
      exact hx hy
    rw [List.map_cons, specConvert] at hok ⊢
    cases hmap : map (intRow x).name with
    | none =>
      rw [hmap] at hok
      dsimp only at hok ⊢
      intro name hname
      rcases List.mem_cons.mp hname with rfl | hname
      · exact Or.inl ⟨hmap, (hafter map).trans hmap⟩
      · exact ih hnd (k + 1) hok name hname
    | some v =>
      rw [hmap] at hok
      cases v with
      | str str =>
        dsimp only at hok ⊢
        cases hspec : specCvt (N := N) conv (enomem k) (intRow x) str with
        | error e =>
          rw [hspec] at hok
          cases hok
        | ok v =>
          rw [hspec] at hok
          dsimp only at hok ⊢
          obtain ⟨n, hconv, rfl⟩ : ∃ n, conv str = .ok n ∧ v = .int (UInt64.ofNat n) := by
            simp only [specCvt, intRow, checkConditionStr] at hspec
            split at hspec
            · cases hspec
            · rename_i n hn
              split_ifs at hspec
              exact ⟨n, hn, (Except.ok.inj hspec).symm⟩
          intro name hname
          rcases List.mem_cons.mp hname with rfl | hmem
          · exact Or.inr ⟨str, n, hmap, hconv, (hafter _).trans (Function.update_self ..)⟩
          · have hne : name ≠ (intRow x).name := fun heq => hx ((show name = x from heq) ▸ hmem)
            have hrest := ih hnd (k + 1) hok name hmem
            rwa [NvMap.set, Function.update_of_ne hne] at hrest
      | _ => cases hok

/-- There is no error if every name is absent or has a number. -/
theorem specConvert_ints_ok {names : List CStr} (hnd : names.Nodup) (k : Nat)
    (hall : ∀ name ∈ names, ∀ v, map name = some v → ∃ str n, v = .str str ∧ conv str = .ok n) :
    (specConvert conv (fun _ => false) false (names.map intRow) k map).1 = .ok () := by
  induction names generalizing k map with
  | nil => rfl
  | cons x names ih =>
    obtain ⟨hx, hnd⟩ := List.nodup_cons.mp hnd
    obtain ⟨hfirst, hrest⟩ := List.forall_mem_cons.mp hall
    rw [List.map_cons, specConvert]
    cases hmap : map (intRow x).name with
    | none => exact ih hnd (k + 1) hrest
    | some v =>
      obtain ⟨str, n, rfl, hconv⟩ := hfirst v hmap
      have hspec : specCvt (N := N) conv false (intRow x) str = .ok (.int (UInt64.ofNat n)) := by
        simp only [specCvt, intRow, checkConditionStr, hconv, Bool.false_eq_true, if_false]
      dsimp only
      rw [hspec]
      refine ih hnd (k + 1) fun name hname v hv => hrest name hname v ?_
      have hne : name ≠ (intRow x).name := by
        rintro rfl
        exact hx hname
      rwa [NvMap.set, Function.update_of_ne hne] at hv

end Ints

section Parse

variable {N A M : Type} [DecidableEq N] [DecidableEq A] [TreeMem A M] [LawfulTreeMem A M]
  (alloc : Allocator A) {req req' : Request N A M} {σ : NvState N} {shape : N → BTree A} {map : NvMap N}
  {v : CStr}

theorem isNumber_iff {str : CStr} : IsNumber str ↔ ∃ n, str2u64Of str = .ok n := by
  constructor
  · exact fun h => ⟨_, str2u64Of_eq.mpr ⟨h, rfl⟩⟩
  · rintro ⟨n, hn⟩
    exact (str2u64Of_eq.mp hn).1

theorem headers_nodup : [scgiName, contentLengthName, remotePortName, serverPortName].Nodup := by decide

/-- The table does not have the request method. -/
theorem requestMethod_keeps (enomem : Nat → Bool) (map : NvMap N) :
    (specConvert str2u64Of enomem false scgiConvertHeaders 0 map).2 requestMethodName =
      map requestMethodName := by
  refine specConvert_keeps _ _ _ _ _ (Or.inl fun info hi => ?_)
  obtain ⟨name, hname, rfl⟩ := List.mem_map.mp hi
  have hall : ∀ name ∈ [scgiName, contentLengthName, remotePortName, serverPortName],
      name ≠ requestMethodName := by decide
  exact hall name hname

/-- What is done after the conversion, on the map. -/
def headerResult (map : NvMap N) (req : Request N A M) : Except Errno Unit × Request N A M :=
  match typedSpec Value.int? (map scgiName) with
  | .error e => (.error e, req)
  | .ok i =>
    if i ≠ 1 then (.error .EINVAL, req)
    else
      match typedSpec Value.int? (map contentLengthName) with
      | .error e => (.error e, req)
      | .ok i =>
        match typedSpec Value.str? (map requestMethodName) with
        | .error e => (.error e, { req with contentLength := i })
        | .ok s => (.ok (), { req with contentLength := i, method := requestMethod s })

theorem typedSpec_int {o : Option (Value N)} {i : UInt64} :
    typedSpec Value.int? o = .ok i ↔ o = some (.int i) := by
  rcases o with _ | v
  · simp [typedSpec]
  · cases v <;> simp [typedSpec, Value.int?]

theorem typedSpec_str {o : Option (Value N)} {s : CStr} :
    typedSpec Value.str? o = .ok s ↔ o = some (.str s) := by
  rcases o with _ | v
  · simp [typedSpec]
  · cases v <;> simp [typedSpec, Value.str?]

theorem headerResult_ok (h : (headerResult map req).1 = .ok ()) :
    map scgiName = some (.int 1) ∧ map contentLengthName = some (.int (headerResult map req).2.contentLength) ∧
      ∃ s, map requestMethodName = some (.str s) := by
  rw [headerResult] at h ⊢
  split at h
  · cases h
  · rename_i i hi
    split_ifs at h with h1
    split at h
    · cases h
    · rename_i j hj
      split at h
      · cases h
      · rename_i s hs
        rw [not_not] at h1
        subst h1
        refine ⟨typedSpec_int.mp hi, ?_, s, typedSpec_str.mp hs⟩
        rw [if_neg (not_not.mpr rfl)]
        exact typedSpec_int.mp hj

theorem headerResult_of {i : UInt64} {s : CStr} (hscgi : map scgiName = some (.int (UInt64.ofNat 1)))
    (hlength : map contentLengthName = some (.int i)) (hmethod : map requestMethodName = some (.str s)) :
    headerResult map req = (.ok (), { req with contentLength := i, method := requestMethod s }) := by
  rw [headerResult, typedSpec_int.mpr hscgi]
  dsimp only
  rw [if_neg (by decide), typedSpec_int.mpr hlength]
  dsimp only
  rw [typedSpec_str.mpr hmethod]

/-- The conversion of the headers, and then what is left to do. -/
theorem parseHeaders_eq (enomem : Nat → Bool) (hc : req.coded req.headers = false) (hr : Related req.heap σ shape)
    (hn : σ req.headers = some map) :
    ∃ heap, parseHeaders alloc enomem req =
      match (specConvert str2u64Of enomem false scgiConvertHeaders 0 map).1 with
      | .error e => pure (.error e, { req with heap })
      | .ok () => pure (headerResult (specConvert str2u64Of enomem false scgiConvertHeaders 0 map).2
          { req with heap }) := by
  obtain ⟨heap, shape', hcvt, hr'⟩ := convertRows_spec alloc enomem false scgiConvertHeaders 0 hr hn
  have hans := hr'.answers (modify_self hn _)
  have hconv : nvlConvert alloc enomem req.heap req.headers (some scgiConvertHeaders) false = _ := hcvt
  refine ⟨heap, ?_⟩
  rw [parseHeaders, Lists.named, hc, if_neg Bool.false_ne_true, pure_bind, hconv, pure_bind]
  set map' := (specConvert str2u64Of enomem false scgiConvertHeaders 0 map).2
  cases (specConvert str2u64Of enomem false scgiConvertHeaders 0 map).1 with
  | error e => rfl
  | ok u =>
    dsimp only
    rw [hans.lookupInt, pure_bind, headerResult]
    cases typedSpec Value.int? (map' scgiName) with
    | error e => rfl
    | ok i =>
      dsimp only
      by_cases hi : i ≠ 1
      · rw [if_pos hi, if_pos hi]
      · rw [if_neg hi, if_neg hi, hans.lookupInt, pure_bind]
        cases typedSpec Value.int? (map' contentLengthName) with
        | error e => rfl
        | ok j =>
          have hmax : ¬j.toNat > sizeMax := by
            have := j.toNat_lt
            rw [sizeMax]
            omega
          dsimp only
          rw [if_neg hmax, hans.lookupStr, pure_bind]
          cases typedSpec Value.str? (map' requestMethodName) <;> rfl

omit [LawfulTreeMem A M] in
/-- Headers that are accepted have no code for a name. -/
theorem parseHeaders_named (enomem : Nat → Bool) {r : Except Errno Unit × Request N A M}
    (hrun : parseHeaders alloc enomem req = pure r) : req.coded req.headers = false := by
  cases hc : req.coded req.headers with
  | false => rfl
  | true =>
    rw [parseHeaders, Lists.named, hc, if_pos rfl] at hrun
    cases hrun

/-- Headers that are accepted, and the length that comes out. -/
theorem parseHeaders_ok (enomem : Nat → Bool) (hr : Related req.heap σ shape)
    (hn : σ req.headers = some map) (hv : map contentLengthName = some (.str v))
    (hrun : parseHeaders alloc enomem req = pure (.ok (), req')) :
    OthersOk map ∧ ∃ n, str2u64Of v = .ok n ∧ req'.contentLength = UInt64.ofNat n := by
  obtain ⟨heap, heq⟩ := parseHeaders_eq alloc enomem (parseHeaders_named alloc enomem hrun) hr hn
  rw [heq] at hrun
  cases hres : (specConvert str2u64Of enomem false scgiConvertHeaders 0 map).1 with
  | error e =>
    rw [hres] at hrun
    cases congrArg Prod.fst (pure_inj hrun)
  | ok u =>
    rw [hres] at hrun
    have hfst := pure_inj hrun
    obtain ⟨hscgi, hlength, s, hmethod⟩ := headerResult_ok (congrArg Prod.fst hfst)
    rw [hfst] at hlength
    rw [requestMethod_keeps] at hmethod
    have hints := specConvert_ints headers_nodup 0 hres
    have hport : ∀ name ∈ [scgiName, contentLengthName, remotePortName, serverPortName], ∀ v,
        map name = some v → ∃ str, v = .str str ∧ IsNumber str := by
      intro name hname w hw
      rcases hints name hname with ⟨hno, -⟩ | ⟨str, n, hstr, hnum, -⟩
      · rw [hno] at hw
        cases hw
      · rw [hstr] at hw
        exact ⟨str, (Option.some.inj hw).symm, isNumber_iff.mpr ⟨n, hnum⟩⟩
    refine ⟨⟨?_, hport _ (by decide), hport _ (by decide), s, hmethod⟩, ?_⟩
    · rcases hints scgiName (by decide) with ⟨-, hno⟩ | ⟨str, n, hstr, hnum, hint⟩
      · cases hno.symm.trans hscgi
      · have hint' := hint.symm.trans hscgi
        injection hint' with hint'
        injection hint' with hone
        obtain rfl : n = 1 := by
          rw [← Nat.mod_eq_of_lt (str2u64Of_lt hnum)]
          exact (UInt64.toNat_ofNat' (n := n)).symm.trans (congrArg UInt64.toNat hone)
        obtain ⟨hfst, hsnd⟩ := str2u64Of_eq.mp hnum
        exact ⟨str, hstr, Prod.ext hfst hsnd⟩
    · rcases hints contentLengthName (by decide) with ⟨-, hno⟩ | ⟨str, n, hstr, hnum, hint⟩
      · cases hno.symm.trans hlength
      · have hv' := hstr.symm.trans hv
        have hint' := hint.symm.trans hlength
        injection hv' with hv'
        injection hv' with hv'
        injection hint' with hint'
        injection hint' with hint'
        exact ⟨n, hv' ▸ hnum, hint'.symm⟩

theorem parseHeaders_runs (hc : req.coded req.headers = false) (hr : Related req.heap σ shape) (hn : σ req.headers = some map)
    (hv : map contentLengthName = some (.str v)) (hothers : OthersOk map) (hnum : IsNumber v) :
    ∃ req', parseHeaders alloc (fun _ => false) req = pure (.ok (), req') := by
  obtain ⟨heap, heq⟩ := parseHeaders_eq alloc (fun _ => false) hc hr hn
  obtain ⟨⟨str, hstr, hone⟩, hremote, hserver, ⟨method, hmethod⟩⟩ := hothers
  have hone : str2u64Of str = .ok 1 := str2u64Of_eq.mpr ⟨congrArg Prod.fst hone, congrArg Prod.snd hone⟩
  have hall : ∀ name ∈ [scgiName, contentLengthName, remotePortName, serverPortName], ∀ w,
      map name = some w → ∃ str n, w = .str str ∧ str2u64Of str = .ok n := by
    have hport : ∀ w : Value N, (∃ str, w = .str str ∧ IsNumber str) →
        ∃ str n, w = .str str ∧ str2u64Of str = .ok n := by
      rintro w ⟨str, hw, h⟩
      obtain ⟨n, hn⟩ := isNumber_iff.mp h
      exact ⟨str, n, hw, hn⟩
    intro name hname w hw
    simp only [List.mem_cons, List.not_mem_nil, or_false] at hname
    rcases hname with rfl | rfl | rfl | rfl
    · exact ⟨str, 1, Option.some.inj (hw.symm.trans hstr), hone⟩
    · exact hport w ⟨v, Option.some.inj (hw.symm.trans hv), hnum⟩
    · exact hport w (hremote w hw)
    · exact hport w (hserver w hw)
  have hok := specConvert_ints_ok headers_nodup 0 hall
  have hints := specConvert_ints headers_nodup 0 hok
  have hok : (specConvert str2u64Of (fun _ => false) false scgiConvertHeaders 0 map).1 = .ok () := hok
  rw [heq, hok]
  dsimp only
  rcases hints scgiName (by decide) with ⟨hno, -⟩ | ⟨str', i, hstr', hi, hscgi⟩
  · cases hno.symm.trans hstr
  rcases hints contentLengthName (by decide) with ⟨hno, -⟩ | ⟨v', n, -, -, hlength⟩
  · cases hno.symm.trans hv
  obtain rfl : i = 1 := by
    have heq := hstr'.symm.trans hstr
    injection heq with heq
    injection heq with heq
    rw [heq, hone] at hi
    exact (Except.ok.inj hi).symm
  exact ⟨_, congrArg pure (headerResult_of hscgi hlength ((requestMethod_keeps _ map).trans hmethod))⟩

end Parse

/-! ## All sizes -/

theorem isMax_iff {str : CStr} : IsMax str ↔ str2u64Of str = .ok (2 ^ 64 - 1) := by
  rw [str2u64Of_ok]
  constructor
  · rintro ⟨hdigits, hrest, ⟨hsign, hn⟩ | ⟨hspace, hsign, hn⟩⟩
    · refine ⟨hdigits, by omega, hrest, fun h => hsign h.2, ?_⟩
      rw [scanValue, if_neg hsign, hn]
    · refine ⟨hdigits, by omega, hrest, fun h => hspace h.1, ?_⟩
      rw [scanValue, if_pos hsign, hn]
      rfl
  · rintro ⟨hdigits, hlt, hrest, hminus, hval⟩
    refine ⟨hdigits, hrest, ?_⟩
    rw [scanValue] at hval
    split_ifs at hval with hsign
    · exact Or.inr ⟨fun h => hminus ⟨h, hsign⟩, hsign, by omega⟩
    · exact Or.inl ⟨hsign, hval⟩

/-- The length of a netstring, for any number of digits. -/
theorem readNetstringLength_digits {N A M : Type} (req : Req N A M) {ds rest : Bytes}
    (hds : ∀ c ∈ ds, isDigit c) (hin : req.fd.input = ds ++ 58 :: rest) :
    ∃ req', readNetstringLength req = pure (.ok (UInt64.ofNat (decimalValue ds)), req') := by
  obtain ⟨pieces, h⟩ := lengthLoop req hds [] hin
  rw [List.nil_append] at h
  exact ⟨_, h⟩

section Sizes

variable {N A M : Type} [DecidableEq N] [DecidableEq A] [TreeMem A M] [LawfulTreeMem A M]
  (alloc : Allocator A) {σ : NvState N} {shape : N → BTree A} {map : NvMap N} {v : CStr}

/-- `read_netstring_length` returns the number before the colon, and the buffers of
`read_netstring_string` and of `scgi_read_body` are large enough, if and only if that number is smaller than
2^64 - 1 and CONTENT_LENGTH is not 2^64 - 1 in headers that are accepted. -/
theorem scgi_sizes_iff (req : Req N A M) {ds rest : Bytes} (hds : ∀ c ∈ ds, isDigit c)
    (hin : req.fd.input = ds ++ 58 :: rest) (sreq : Request N A M) (hr : Related sreq.heap σ shape)
    (hn : σ sreq.headers = some map) (hv : map contentLengthName = some (.str v)) :
    ((∀ len req', readNetstringLength req = pure (.ok len, req') →
        len.toNat = decimalValue ds ∧ (netstringExtent len).Inside) ∧
      ∀ enomem sreq', parseHeaders alloc enomem sreq = pure (.ok (), sreq') →
        (bodyExtent sreq'.contentLength).Inside) ↔
    decimalValue ds < 2 ^ 64 - 1 ∧ ¬(IsMax v ∧ OthersOk map ∧ sreq.coded sreq.headers = false) := by
  obtain ⟨req', hlength⟩ := readNetstringLength_digits req hds hin
  constructor
  · rintro ⟨hnet, hbody⟩
    constructor
    · obtain ⟨hval, hinside⟩ := hnet _ _ hlength
      have hlt := (UInt64.ofNat (decimalValue ds)).toNat_lt
      have hne := (netstringExtent_inside _).mp hinside
      omega
    · rintro ⟨hmax, hothers, hc⟩
      have hnum := isMax_iff.mp hmax
      obtain ⟨sreq', hrun⟩ := parseHeaders_runs alloc hc hr hn hv hothers (isNumber_iff.mpr ⟨_, hnum⟩)
      obtain ⟨-, n, hnum', hlen⟩ := parseHeaders_ok alloc _ hr hn hv hrun
      rw [hnum] at hnum'
      obtain rfl := Except.ok.inj hnum'
      refine (bodyExtent_inside _).mp (hbody _ _ hrun) ?_
      rw [hlen]
      rfl
  · rintro ⟨hlt, hmax⟩
    constructor
    · intro len req'' hrun
      have hlen : UInt64.ofNat (decimalValue ds) = len :=
        Except.ok.inj (congrArg Prod.fst (pure_inj (hlength.symm.trans hrun)))
      have hval : len.toNat = decimalValue ds := by
        rw [← hlen, UInt64.toNat_ofNat', Nat.mod_eq_of_lt (by omega)]
      exact ⟨hval, (netstringExtent_inside len).mpr (by omega)⟩
    · intro enomem sreq' hrun
      obtain ⟨hothers, n, hnum, hlen⟩ := parseHeaders_ok alloc enomem hr hn hv hrun
      refine (bodyExtent_inside _).mpr fun heq => hmax ⟨isMax_iff.mpr ?_, hothers, parseHeaders_named alloc enomem hrun⟩
      rw [hlen, UInt64.toNat_ofNat', Nat.mod_eq_of_lt (str2u64Of_lt hnum)] at heq
      rw [hnum, heq]

end Sizes

/-- A request whose headers are in `heap`. -/
def parsedReq (heap : Heap Unit Nat (PlainMem Nat)) : Request Unit Nat (PlainMem Nat) :=
  { newReq [] with heap, contentLength := 0, body := none, method := .unknown }

/-- The headers of a request with a body of five bytes. -/
def smallHeaders : List (CStr × CStr) :=
  [(scgiName, cstr (text ['1'])), (contentLengthName, cstr (text ['5'])),
    (requestMethodName, cstr (text ['P', 'U', 'T']))]

/-- The headers are accepted, and both buffers are large enough. -/
theorem scgi_sizes_iff_accepted : ∃ (heap : Heap Unit Nat (PlainMem Nat)) (len : UInt64)
    (req' : Req Unit Nat (PlainMem Nat)) (sreq' : Request Unit Nat (PlainMem Nat)),
    execRun natAllocator (Heap.empty Unit (freshMem Nat)) (.alloc () :: setStrings smallHeaders) =
        pure ([.ok (), .ok (), .ok (), .ok ()], heap) ∧
      readNetstringLength (newReq (text ['1', '2', ':', 'x'])) = pure (.ok len, req') ∧
      len.toNat = 12 ∧ (netstringExtent len).Inside ∧
      parseHeaders natAllocator (fun _ => false) (parsedReq heap) = pure (.ok (), sreq') ∧
      sreq'.contentLength = 5 ∧ (bodyExtent sreq'.contentLength).Inside := by
  obtain ⟨heap, σ, map, shape, hbuilt, hr, hn, hmap⟩ := setStrings_run smallHeaders (by decide)
  have hv : map contentLengthName = some (.str (cstr (text ['5']))) := hmap _
  have hfive : str2u64Of (cstr (text ['5'])) = .ok 5 := rfl
  have hmax : ¬IsMax (cstr (text ['5'])) := by
    rw [isMax_iff, hfive, Except.ok.injEq]
    omega
  have hothers : OthersOk map := by
    refine ⟨⟨cstr (text ['1']), hmap _, rfl⟩, ?_, ?_, cstr (text ['P', 'U', 'T']), hmap _⟩
    · intro w hw
      cases (hmap _).symm.trans hw
    · intro w hw
      cases (hmap _).symm.trans hw
  have hds : ∀ c ∈ text ['1', '2'], isDigit c :=
    List.all_eq_true.mp (rfl : (text ['1', '2']).all isDigit = true)
  have hin : (newReq (text ['1', '2', ':', 'x'])).fd.input = text ['1', '2'] ++ 58 :: text ['x'] := rfl
  have hsmall : decimalValue (text ['1', '2']) < 2 ^ 64 - 1 := of_decide_eq_true rfl
  obtain ⟨hnet, hbody⟩ :=
    (scgi_sizes_iff natAllocator _ hds hin (parsedReq heap) hr hn hv).mpr ⟨hsmall, fun h => hmax h.1⟩
  obtain ⟨req', hlength⟩ := readNetstringLength_digits _ hds hin
  have hruns : ∃ sreq', parseHeaders natAllocator (fun _ => false) (parsedReq heap) = pure (.ok (), sreq') :=
    parseHeaders_runs natAllocator rfl hr hn hv hothers (isNumber_iff.mpr ⟨5, hfive⟩)
  obtain ⟨sreq', hparse⟩ := hruns
  obtain ⟨-, n, hnum, hlen⟩ := parseHeaders_ok natAllocator _ hr hn hv hparse
  obtain rfl : 5 = n := Except.ok.inj (hfive.symm.trans hnum)
  exact ⟨heap, _, req', sreq', hbuilt, hlength, (hnet _ _ hlength).1, (hnet _ _ hlength).2, hparse, hlen,
    hbody _ _ hparse⟩

/-- 2^64 in decimal digits. -/
def overDigits : Bytes :=
  text ['1', '8', '4', '4', '6', '7', '4', '4', '0', '7', '3', '7', '0', '9', '5', '5', '1', '6', '1', '6']

/-- 2^64 - 1 in decimal digits. -/
def maxDigits : Bytes :=
  text ['1', '8', '4', '4', '6', '7', '4', '4', '0', '7', '3', '7', '0', '9', '5', '5', '1', '6', '1', '5']

/-- The length of `18446744073709551616:` is 0, and for the number before it nothing is allocated. -/
theorem scgi_sizes_wrap :
    (∃ req', readNetstringLength (newReq (overDigits ++ [58])) = pure (.ok 0, req')) ∧
      decimalValue overDigits = 2 ^ 64 ∧
      (∃ req', readNetstringLength (newReq (maxDigits ++ [58])) = pure (.ok 0xffffffffffffffff, req')) ∧
      (netstringExtent 0xffffffffffffffff).size = 0 ∧ (bodyExtent 0xffffffffffffffff).size = 0 := by
  have hover : decimalValue overDigits = 2 ^ 64 := rfl
  have hmax : decimalValue maxDigits = 2 ^ 64 - 1 := rfl
  obtain ⟨req', hrun⟩ := readNetstringLength_digits (newReq (overDigits ++ [58]))
    (List.all_eq_true.mp (rfl : overDigits.all isDigit = true)) rfl
  obtain ⟨req'', hrun'⟩ := readNetstringLength_digits (newReq (maxDigits ++ [58]))
    (List.all_eq_true.mp (rfl : maxDigits.all isDigit = true)) rfl
  rw [hover] at hrun
  rw [hmax] at hrun'
  exact ⟨⟨req', hrun⟩, hover, ⟨req'', hrun'⟩, rfl, rfl⟩

end Libjeffpc.Scgi
