import Mathlib.Data.Stream.Init
import Libjeffpc.Val.Heap

/-!
# What the functions on the heap do to the counts

`Runs m h₀ f h post`: `f` returns from the heap `h`, and the objects of `h₀` that are still in use are as
they were. With `any`, this is so for all answers to its requests for memory; with `chosen`, for some
answers, whatever is answered after them. Each function is described by the references that it takes
from the list of those owned and puts there. `Stuck f h`: for some answers, `f` does not return.
-/

namespace Libjeffpc.Heap

open Lib Libjeffpc.Lib.RcHeap

inductive Mode where
  | any
  | chosen

variable {α β : Type} {m : Mode} {h₀ h h' : RcHeap Obj} {owned : List Pointer} {p : Pointer}

def Runs (m : Mode) (h₀ : RcHeap Obj) (f : HeapM α) (h : RcHeap Obj) (post : α → RcHeap Obj → Prop) :
    Prop :=
  match m with
  | .any => ∀ g, ∃ r h' g', f ⟨h, g⟩ = pure (r, ⟨h', g'⟩) ∧ Keeps h₀ h' ∧ post r h'
  | .chosen => ∃ (gs : List Bool) (r : α) (h' : RcHeap Obj),
      (∀ g : Stream' Bool, f ⟨h, gs ++ₛ g⟩ = pure (r, ⟨h', g⟩)) ∧ Keeps h₀ h' ∧ post r h'

def Stuck (f : HeapM α) (h : RcHeap Obj) : Prop := ∃ g, ∀ r, f ⟨h, g⟩ ≠ pure r

theorem bind_run {f : HeapM α} {g : α → HeapM β} {s s' : State} {r : α} (hf : f s = pure (r, s')) :
    (f >>= g) s = g r s' := by
  show (f s >>= fun x => g x.1 x.2) = _
  rw [hf, pure_bind]

namespace Runs

variable {f : HeapM α} {P Q : α → RcHeap Obj → Prop}

/-- No request is made. -/
theorem det {r : α} {h' : RcHeap Obj} (hf : ∀ g, f ⟨h, g⟩ = Pure.pure (r, ⟨h', g⟩)) (hk : Keeps h₀ h')
    (hP : P r h') : Runs m h₀ f h P := by
  cases m with
  | any => exact fun g => ⟨r, h', g, hf g, hk, hP⟩
  | chosen => exact ⟨[], r, h', hf, hk, hP⟩

theorem pure {r : α} (hk : Keeps h₀ h) (hP : P r h) : Runs m h₀ (Pure.pure r) h P :=
  det (fun _ => rfl) hk hP

theorem bind {g : α → HeapM β} {R : β → RcHeap Obj → Prop} (hf : Runs m h₀ f h P)
    (hg : ∀ r h', Keeps h₀ h' → P r h' → Runs m h₀ (g r) h' R) : Runs m h₀ (f >>= g) h R := by
  cases m with
  | any =>
    intro a
    obtain ⟨r, h1, a1, hrun, hk, hP⟩ := hf a
    obtain ⟨r', h2, a2, hrun', hk', hR⟩ := hg r h1 hk hP a1
    exact ⟨r', h2, a2, (bind_run hrun).trans hrun', hk', hR⟩
  | chosen =>
    obtain ⟨gs, r, h1, hrun, hk, hP⟩ := hf
    obtain ⟨gs', r', h2, hrun', hk', hR⟩ := hg r h1 hk hP
    refine ⟨gs ++ gs', r', h2, fun a => ?_, hk', hR⟩
    rw [Stream'.append_append_stream]
    exact (bind_run (hrun _)).trans (hrun' a)

theorem mono (hf : Runs m h₀ f h P) (hPQ : ∀ r h', P r h' → Q r h') : Runs m h₀ f h Q := by
  cases m with
  | any =>
    intro a
    obtain ⟨r, h1, a1, hrun, hk, hP⟩ := hf a
    exact ⟨r, h1, a1, hrun, hk, hPQ r h1 hP⟩
  | chosen =>
    obtain ⟨gs, r, h1, hrun, hk, hP⟩ := hf
    exact ⟨gs, r, h1, hrun, hk, hPQ r h1 hP⟩

theorem keeps (hf : Runs m h₀ f h P) : Runs m h₀ f h fun r h' => Keeps h₀ h' ∧ P r h' := by
  cases m with
  | any =>
    intro a
    obtain ⟨r, h1, a1, hrun, hk, hP⟩ := hf a
    exact ⟨r, h1, a1, hrun, hk, hk, hP⟩
  | chosen =>
    obtain ⟨gs, r, h1, hrun, hk, hP⟩ := hf
    exact ⟨gs, r, h1, hrun, hk, hk, hP⟩

/-- What a run keeps of its own start it keeps of every heap before it. -/
theorem base (hf : Runs m h f h P) (hk : Keeps h₀ h) :
    Runs m h₀ f h fun r h' => Keeps h h' ∧ P r h' := by
  cases m with
  | any =>
    intro a
    obtain ⟨r, h1, a1, hrun, hk', hP⟩ := hf a
    exact ⟨r, h1, a1, hrun, hk.trans hk', hk', hP⟩
  | chosen =>
    obtain ⟨gs, r, h1, hrun, hk', hP⟩ := hf
    exact ⟨gs, r, h1, hrun, hk.trans hk', hk', hP⟩

theorem congr {f' : HeapM α} (hff : ∀ g, f ⟨h, g⟩ = f' ⟨h, g⟩) (hf : Runs m h₀ f' h P) : Runs m h₀ f h P := by
  cases m with
  | any =>
    intro a
    rw [hff]
    exact hf a
  | chosen =>
    obtain ⟨gs, r, h1, hrun, hk, hP⟩ := hf
    exact ⟨gs, r, h1, fun g => (hff _).trans (hrun g), hk, hP⟩

theorem request {P : Bool → RcHeap Obj → Prop} (hk : Keeps h₀ h) (htrue : P true h)
    (hfalse : m = .any → P false h) : Runs m h₀ request h P := by
  cases m with
  | any =>
    intro a
    refine ⟨a 0, h, _, rfl, hk, ?_⟩
    cases a 0 with
    | true => exact htrue
    | false => exact hfalse rfl
  | chosen => exact ⟨[true], true, h, fun _ => rfl, hk, htrue⟩

theorem request_refused {P : Bool → RcHeap Obj → Prop} (hk : Keeps h₀ h) (hfalse : P false h) :
    Runs .chosen h₀ Heap.request h P := ⟨[false], false, h, fun _ => rfl, hk, hfalse⟩

end Runs

namespace Stuck

variable {f : HeapM α} {g : α → HeapM β}

theorem of_throw {e : Fault} (hf : ∀ s, f s = throw e) : Stuck f h := by
  refine ⟨fun _ => true, fun r hr => ?_⟩
  rw [hf] at hr
  cases hr

theorem congr {f' : HeapM α} (hff : ∀ g, f ⟨h, g⟩ = f' ⟨h, g⟩) (hf : Stuck f' h) : Stuck f h := by
  obtain ⟨a, ha⟩ := hf
  refine ⟨a, fun r hr => ha r ?_⟩
  rwa [hff] at hr

theorem left (hf : Stuck f h) : Stuck (f >>= g) h := by
  obtain ⟨a, ha⟩ := hf
  refine ⟨a, fun r hr => ?_⟩
  have hr' : (f ⟨h, a⟩ >>= fun x => g x.1 x.2) = pure r := hr
  rcases hc : f ⟨h, a⟩ with _ | e | x
  · rw [hc] at hr'
    cases hr'
  · rw [hc] at hr'
    cases hr'
  · exact ha x hc

theorem right {P : α → RcHeap Obj → Prop} (hf : Runs .chosen h₀ f h P)
    (hg : ∀ r h', Keeps h₀ h' → P r h' → Stuck (g r) h') : Stuck (f >>= g) h := by
  obtain ⟨gs, r, h1, hrun, hk, hP⟩ := hf
  obtain ⟨a, ha⟩ := hg r h1 hk hP
  refine ⟨gs ++ₛ a, fun r' hr => ha r' ?_⟩
  rwa [bind_run (hrun a)] at hr

end Stuck

/-! ## References -/

/-- An object that is owned is still there. -/
theorem Keeps.live_owned {h h' : RcHeap Obj} {a : Nat} {b : Obj} (hk : Keeps h h')
    (hb' : Balanced h' owned) (hm : .obj a ∈ owned) (ha : a < h.next) (hl : h.live a = some b) :
    h'.live a = some b := by
  obtain ⟨c, hc⟩ := hb'.live_of_owned hm
  have := hk.body a ha c hc
  rw [hl] at this
  rw [hc, ← this]

theorem onHeap_runs {f : RcHeap Obj → Comp (RcHeap Obj)} {P : RcHeap Obj → Prop}
    (hf : ∃ h', f h = pure h' ∧ P h' ∧ Keeps h h') : Runs m h (onHeap f) h fun _ h' => P h' := by
  obtain ⟨h', hrun, hP, hk⟩ := hf
  refine .det (r := ()) (fun g => ?_) hk hP
  rw [onHeap, hrun, pure_bind]

theorem valGetref_runs (hb : Balanced h owned) (hp : p.isErr = false)
    (hl : ∀ a, p = .obj a → ∃ b, h.live a = some b) :
    Runs m h (valGetref p) h fun r h' => r = p ∧ Balanced h' (p :: owned) :=
  (onHeap_runs (hb.getref hp hl)).bind fun _ _ hk hb' => .pure hk ⟨rfl, hb'⟩

theorem valPutref_runs (hb : Balanced h (p :: owned)) :
    Runs m h (valPutref p) h fun _ h' => Balanced h' owned := onHeap_runs hb.putref

theorem valPutref_eq (hb : Balanced h (p :: owned)) :
    ∃ h', (∀ g, valPutref p ⟨h, g⟩ = pure ((), ⟨h', g⟩)) ∧ Balanced h' owned ∧ Keeps h h' := by
  obtain ⟨h', hput, hb', hk⟩ := hb.putref
  refine ⟨h', fun g => ?_, hb', hk⟩
  rw [valPutref, onHeap, hput]
  rfl

theorem putAll_runs {l : List Pointer} (hb : Balanced h (l ++ owned)) :
    Runs m h (putAll l) h fun _ h' => Balanced h' owned := by
  induction l generalizing h with
  | nil => exact .pure (.refl _) hb
  | cons p l ih =>
    exact (valPutref_runs hb).bind fun _ _ hk hb' => ((ih hb').base hk).mono fun _ _ h => h.2

/-- A code is not a pointer. -/
theorem putAll_stuck {l : List Pointer} {e : Errno} (hb : Balanced h (l.filter (!·.isErr) ++ owned))
    (he : .err e ∈ l) : Stuck (putAll l) h := by
  induction l generalizing h with
  | nil => cases he
  | cons p l ih =>
    cases hp : p.isErr with
    | true =>
      cases p with
      | err e' =>
        refine .left (.of_throw (e := .code) fun s => ?_)
        rw [valPutref, onHeap, putref.eq_def]
        rfl
      | _ => cases hp
    | false =>
      have hmem : .err e ∈ l := by
        rcases List.mem_cons.mp he with rfl | he
        · cases hp
        · exact he
      rw [List.filter_cons_of_pos (by simp [hp])] at hb
      exact .right (valPutref_runs (m := .chosen) hb) fun _ _ _ hb' => ih hb' hmem

/-! ## Objects that are read -/

/-- A function that changes nothing. -/
def Reads (f : HeapM α) (h : RcHeap Obj) (r : α) : Prop := ∀ g, f ⟨h, g⟩ = pure (r, ⟨h, g⟩)

theorem Reads.bind {f : HeapM α} {r : α} (hf : Reads f h r) (g : α → HeapM β) (a : Nat → Bool) :
    (f >>= g) ⟨h, a⟩ = g r ⟨h, a⟩ := bind_run (hf a)

theorem Reads.then {f : HeapM α} {g : α → HeapM β} {r : α} {r' : β} (hf : Reads f h r)
    (hg : Reads (g r) h r') : Reads (f >>= g) h r' := fun a => (hf.bind g a).trans (hg a)

theorem Reads.runs {f : HeapM α} {r : α} (hf : Reads f h r) (hk : Keeps h₀ h) {g : α → HeapM β}
    {P : β → RcHeap Obj → Prop} (hg : Runs m h₀ (g r) h P) : Runs m h₀ (f >>= g) h P :=
  (Runs.det (P := fun r' h' => r' = r ∧ h' = h) hf hk ⟨rfl, rfl⟩).bind fun r' h' _ hr => by
    obtain ⟨rfl, rfl⟩ := hr
    exact hg

theorem Reads.stuck {f : HeapM α} {r : α} (hf : Reads f h r) {g : α → HeapM β} (hg : Stuck (g r) h) :
    Stuck (f >>= g) h := by
  obtain ⟨a, ha⟩ := hg
  refine ⟨a, fun r' hr => ha r' ?_⟩
  rwa [hf.bind] at hr

theorem reads_pure (r : α) : Reads (pure r) h r := fun _ => rfl

theorem load_reads {b : Obj} (hp : Holds h p b) : Reads (load p) h b := by
  intro g
  cases p with
  | static s =>
    obtain rfl : s.obj = b := hp
    rfl
  | obj a =>
    show (h.deref Static.obj (.obj a) >>= _) = _
    rw [deref_live hp]
    rfl
  | null => exact hp.elim
  | err e => exact hp.elim

theorem Holds.ne_null {b : Obj} (hp : Holds h p b) : p ≠ .null := by
  rintro rfl
  exact hp

/-- What is still in use is as it was. -/
theorem Holds.keep {b : Obj} (hp : Holds h p b) (hb : Balanced h owned) (hk : Keeps h h')
    (hl : ∀ a, p = .obj a → ∃ c, h'.live a = some c) : Holds h' p b := by
  cases p with
  | obj a =>
    obtain ⟨c, hc⟩ := hl a rfl
    have := hk.body a (hb.lt_next hp) c hc
    obtain rfl : b = c := Option.some.inj (Eq.trans (Eq.symm hp) this)
    exact hc
  | _ => exact hp

theorem Holds.ref {b : Obj} (hp : Holds h p b) :
    p.isErr = false ∧ ∀ a, p = .obj a → ∃ b', h.live a = some b' := by
  cases p with
  | obj a =>
    refine ⟨rfl, ?_⟩
    rintro x ⟨rfl⟩
    exact ⟨b, hp⟩
  | static s => exact ⟨rfl, nofun⟩
  | null => exact hp.elim
  | err e => exact hp.elim

/-- What an object holds can be referred to. -/
theorem Holds.held {b : Obj} (hp : Holds h p b) (hb : Balanced h owned) {c : Pointer}
    (hc : c ∈ Holder.refs b) : c.isErr = false ∧ ∀ a, c = .obj a → ∃ b', h.live a = some b' := by
  cases p with
  | obj a =>
    refine ⟨hb.clean a c (by rwa [refsAt_live hp]), ?_⟩
    rintro x rfl
    exact hb.live_of_held hp hc
  | static s =>
    obtain rfl : s.obj = b := hp
    cases s with
    | consEmpty =>
      obtain rfl : c = .null := by simpa [Static.obj, Holder.refs] using hc
      exact ⟨rfl, nofun⟩
    | _ => cases hc
  | null => exact hp.elim
  | err e => exact hp.elim

/-! ## New objects -/

/-- The answer to a request. -/
theorem request_answer {g : Nat → Bool} {b : Bool} (hg : g 0 = b) :
    request ⟨h, g⟩ = pure (b, ⟨h, fun k => g (k + 1)⟩) := by
  subst hg
  rfl

theorem valAlloc_granted {g : Nat → Bool} {b : Obj} (hg : g 0 = true) :
    valAlloc b ⟨h, g⟩ = pure (.obj h.next, ⟨h.alloc b, fun k => g (k + 1)⟩) := by
  rw [valAlloc, bind_run (request_answer hg)]
  rfl

theorem valAlloc_denied {g : Nat → Bool} {b : Obj} (hg : g 0 = false) :
    valAlloc b ⟨h, g⟩ = pure (.err .ENOMEM, ⟨h, fun k => g (k + 1)⟩) := by
  rw [valAlloc, bind_run (request_answer hg)]
  rfl

theorem live_alloc (h : RcHeap Obj) (b : Obj) : (h.alloc b).live h.next = some b := by
  rw [live, obj_alloc_self]
  rfl

/-- A new object takes over what it holds, or everything stays as it was. -/
theorem valAlloc_runs {b : Obj} (hb : Balanced h (Holder.refs b ++ owned)) :
    Runs m h (valAlloc b) h fun r h' =>
      (m = .any ∧ r = .err .ENOMEM ∧ h' = h) ∨
      (r = .obj h.next ∧ Balanced h' (r :: owned) ∧ h'.live h.next = some b) := by
  refine (Runs.request (P := fun granted h' => h' = h ∧ (granted = false → m = .any)) (.refl h)
    ⟨rfl, nofun⟩ fun hm => ⟨rfl, fun _ => hm⟩).bind fun granted h1 hk hg => ?_
  obtain ⟨rfl, hg⟩ := hg
  cases granted with
  | false => exact .pure hk (Or.inl ⟨hg rfl, rfl, rfl⟩)
  | true =>
    obtain ⟨hb', hk'⟩ := hb.alloc
    exact .det (r := .obj h1.next) (fun _ => rfl) hk' (Or.inr ⟨rfl, hb', live_alloc h1 b⟩)

theorem valAlloc_refused (b : Obj) :
    Runs .chosen h (valAlloc b) h fun r h' => r = .err .ENOMEM ∧ h' = h := by
  refine (Runs.request_refused (P := fun granted h' => granted = false ∧ h' = h) (.refl h)
    ⟨rfl, rfl⟩).bind fun granted h1 hk hg => ?_
  obtain ⟨rfl, rfl⟩ := hg
  exact .pure hk ⟨rfl, rfl⟩

theorem balanced_empty : Balanced (⟨0, fun _ => none⟩ : RcHeap Obj) ([] : List Pointer) :=
  ⟨fun _ _ => rfl, fun _ => rfl, fun _ _ hp => absurd hp List.not_mem_nil, fun _ hp => absurd hp List.not_mem_nil⟩

theorem balanced_null : Balanced h (.null :: owned) ↔ Balanced h owned :=
  ⟨fun hb => hb.congr (fun _ => (uses_cons.trans (Nat.zero_add _)).symm) fun p hp =>
    hb.owned p (List.mem_cons_of_mem _ hp),
  fun hb => hb.congr (fun _ => uses_cons.trans (Nat.zero_add _)) (List.forall_mem_cons.mpr ⟨rfl, hb.owned⟩)⟩

theorem balanced_static (hb : Balanced h owned) (s : Static) : Balanced h (.static s :: owned) :=
  hb.congr (fun _ => uses_cons.trans (Nat.zero_add _)) (List.forall_mem_cons.mpr ⟨rfl, hb.owned⟩)

theorem valAlloc_str_runs (s : CStr) (hb : Balanced h owned) :
    Runs .chosen h (valAlloc (.str s)) h fun r h' => Balanced h' (r :: owned) ∧ Holds h' r (.str s) := by
  have hb' : Balanced h (Holder.refs (Obj.str s) ++ owned) := hb
  refine (valAlloc_runs hb').mono fun r h1 h1' => ?_
  rcases h1' with ⟨hm, -⟩ | ⟨rfl, hb1, hl1⟩
  · cases hm
  · exact ⟨hb1, hl1⟩

theorem strDup_runs {s : CStr} (hb : Balanced h owned) (hready : m = .any → getPreallocated s) :
    Runs m h (strDup s) h fun r h' => Balanced h' (r :: owned) ∧ Holds h' r (.str s) := by
  rw [strDup]
  by_cases hpre : getPreallocated s = true
  · rw [if_pos hpre]
    exact .pure (.refl h) ⟨balanced_static hb _, rfl⟩
  · rw [if_neg hpre]
    cases m with
    | any => exact absurd (hready rfl) hpre
    | chosen =>
      split
      · exact valAlloc_str_runs s hb
      · refine (Runs.request (m := .chosen) (P := fun granted h' => granted = true ∧ h' = h) (.refl h)
          ⟨rfl, rfl⟩ nofun).bind fun granted h1 _ hg => ?_
        obtain ⟨rfl, rfl⟩ := hg
        exact valAlloc_str_runs s hb

theorem valAllocArray_runs {vals : List Pointer} (hb : Balanced h (vals ++ owned)) :
    Runs m h (valAllocArray vals) h fun r h' =>
      Balanced h' (r.given ++ owned) ∧ (m = .chosen → r.isErr = false) := by
  refine (valAlloc_runs (b := .array vals) hb).bind fun r h1 hk h1' => ?_
  rcases h1' with ⟨rfl, rfl, rfl⟩ | ⟨rfl, hb1, -⟩
  · exact (putAll_runs hb).bind fun _ _ hk hb2 => .pure hk ⟨hb2, nofun⟩
  · exact .pure hk ⟨hb1, fun _ => rfl⟩

theorem valAllocArrayDup_runs {vals : List Pointer} (hb : Balanced h (vals ++ owned)) :
    Runs m h (valAllocArrayDup vals) h fun r h' =>
      Balanced h' (r.given ++ owned) ∧ (m = .chosen → r.isErr = false) := by
  refine (Runs.request (P := fun granted h' => h' = h ∧ (granted = false → m = .any)) (.refl h)
    ⟨rfl, nofun⟩ fun hm => ⟨rfl, fun _ => hm⟩).bind fun granted h1 hk hg => ?_
  obtain ⟨rfl, hg⟩ := hg
  cases granted with
  | false =>
    exact (putAll_runs hb).bind fun _ _ hk hb2 => .pure hk ⟨hb2, fun hm => by rw [hg rfl] at hm; cases hm⟩
  | true => exact valAllocArray_runs hb

/-- With memory, a new reference to an object; without, a code, and what was given is gone. -/
structure Allocates (f : HeapM Pointer) (n : Nat) (b : Obj) (h : RcHeap Obj) (owned : List Pointer) : Prop where
  granted : ∀ g, (∀ k < n, g k = true) → ∃ r h', f ⟨h, g⟩ = pure (r, ⟨h', fun k => g (n + k)⟩) ∧
    Holds h' r b ∧ Balanced h' (r :: owned) ∧ Keeps h h'
  refused : ∀ g k, k < n → g k = false → ∃ h' g', f ⟨h, g⟩ = pure (.err .ENOMEM, ⟨h', g'⟩) ∧
    Balanced h' owned ∧ Keeps h h'

namespace Allocates

variable {f : HeapM Pointer} {n : Nat} {b : Obj}

theorem pure (hp : Holds h p b) (hb : Balanced h (p :: owned)) : Allocates (Pure.pure p) 0 b h owned := by
  refine ⟨fun g _ => ⟨p, h, ?_, hp, hb, .refl h⟩, nofun⟩
  simp only [Nat.zero_add]
  rfl

theorem valAlloc (hrefs : Holder.refs b = ([] : List Pointer)) (hb : Balanced h owned) :
    Allocates (valAlloc b) 1 b h owned := by
  have hb₁ : Balanced h (Holder.refs b ++ owned) := by rwa [hrefs]
  obtain ⟨hb', hk⟩ := hb₁.alloc
  refine ⟨fun g hg => ⟨.obj h.next, h.alloc b, ?_, live_alloc h b, hb', hk⟩,
    fun g k hk hg => ⟨h, fun k => g (k + 1), ?_, hb, .refl h⟩⟩
  · rw [valAlloc_granted (hg 0 Nat.one_pos)]
    simp only [Nat.add_comm]
  · obtain rfl := Nat.lt_one_iff.mp hk
    exact valAlloc_denied hg

/-- One request more. -/
theorem request {e : HeapM Pointer} (hf : Allocates f n b h owned)
    (he : ∀ g, ∃ h' g', e ⟨h, g⟩ = Pure.pure (.err .ENOMEM, ⟨h', g'⟩) ∧ Balanced h' owned ∧ Keeps h h') :
    Allocates (do if ← Heap.request then f else e) (n + 1) b h owned := by
  refine ⟨fun g hg => ?_, fun g k hk hg => ?_⟩
  · obtain ⟨r, h', hrun, hpost⟩ := hf.granted (fun k => g (k + 1)) fun k hk => hg (k + 1) (Nat.succ_lt_succ hk)
    refine ⟨r, h', ?_, hpost⟩
    rw [bind_run (request_answer (hg 0 (Nat.succ_pos n))), if_pos rfl, hrun]
    simp only [Nat.add_right_comm n 1, Nat.add_assoc]
  · cases hg0 : g 0 with
    | false =>
      obtain ⟨h', g', hrun, hpost⟩ := he fun k => g (k + 1)
      refine ⟨h', g', ?_, hpost⟩
      rw [bind_run (request_answer hg0), if_neg Bool.false_ne_true, hrun]
    | true =>
      cases k with
      | zero =>
        rw [hg0] at hg
        cases hg
      | succ k =>
        obtain ⟨h', g', hrun, hpost⟩ := hf.refused (fun k => g (k + 1)) k (Nat.succ_lt_succ_iff.mp hk) hg
        refine ⟨h', g', ?_, hpost⟩
        rw [bind_run (request_answer hg0), if_pos rfl, hrun]

theorem cases (hf : Allocates f n b h owned) (g : Nat → Bool) :
    (∃ r h' g', f ⟨h, g⟩ = Pure.pure (r, ⟨h', g'⟩) ∧ Holds h' r b ∧ Balanced h' (r :: owned)) ∨
      ((∃ k < n, g k = false) ∧ ∃ h' g', f ⟨h, g⟩ = Pure.pure (.err .ENOMEM, ⟨h', g'⟩)) := by
  by_cases hg : ∀ k < n, g k = true
  · obtain ⟨r, h', hrun, hp, hb, -⟩ := hf.granted g hg
    exact .inl ⟨r, h', _, hrun, hp, hb⟩
  · obtain ⟨k, hk, hgk⟩ : ∃ k < n, g k = false := by simpa using hg
    obtain ⟨h', g', hrun, -⟩ := hf.refused g k hk hgk
    exact .inr ⟨⟨k, hk, hgk⟩, h', g', hrun⟩

end Allocates

theorem strDup_allocates (s : CStr) (hb : Balanced h owned) :
    Allocates (strDup s) (strDupRequests s) (.str s) h owned := by
  rw [strDup, strDupRequests]
  split_ifs
  · exact .pure rfl (balanced_static hb _)
  · exact .valAlloc rfl hb
  · exact (Allocates.valAlloc rfl hb).request fun g => ⟨h, g, rfl, hb, .refl h⟩

theorem putAll_eq {l : List Pointer} (hb : Balanced h (l ++ owned)) (g : Nat → Bool) :
    ∃ h' g', putAll l ⟨h, g⟩ = pure ((), ⟨h', g'⟩) ∧ Balanced h' owned ∧ Keeps h h' := by
  obtain ⟨r, h', g', hrun, hk, hb'⟩ := putAll_runs (m := .any) hb g
  exact ⟨h', g', hrun, hb', hk⟩

theorem valAllocArray_allocates {vals : List Pointer} (hb : Balanced h (vals ++ owned)) :
    Allocates (valAllocArray vals) 1 (.array vals) h owned := by
  obtain ⟨hb', hk⟩ := Balanced.alloc (b := Obj.array vals) hb
  refine ⟨fun g hg => ⟨.obj h.next, h.alloc (.array vals), ?_, live_alloc h _, hb', hk⟩, fun g k hk hg => ?_⟩
  · rw [valAllocArray, bind_run (valAlloc_granted (hg 0 Nat.one_pos))]
    simp only [Nat.add_comm]
    rfl
  · obtain rfl := Nat.lt_one_iff.mp hk
    obtain ⟨h', g', hrun, hpost⟩ := putAll_eq hb fun k => g (k + 1)
    refine ⟨h', g', ?_, hpost⟩
    rw [valAllocArray, bind_run (valAlloc_denied hg)]
    show (putAll vals >>= _) _ = _
    rw [bind_run hrun]
    rfl

theorem valAllocArrayDup_allocates {vals : List Pointer} (hb : Balanced h (vals ++ owned)) :
    Allocates (valAllocArrayDup vals) 2 (.array vals) h owned := by
  refine (valAllocArray_allocates hb).request fun g => ?_
  obtain ⟨h', g', hrun, hpost⟩ := putAll_eq hb g
  exact ⟨h', g', by rw [bind_run hrun]; rfl, hpost⟩

/-! ## Pairs -/

theorem uses_pairRefs_cons (x : Nat) (q : CStr × Pointer × Pointer)
    (pairs : List (CStr × Pointer × Pointer)) :
    uses x (pairRefs (q :: pairs)) = uses x [q.2.1] + uses x [q.2.2] + uses x (pairRefs pairs) := by
  have hcons : pairRefs (q :: pairs) = q.2.1 :: q.2.2 :: pairRefs pairs := rfl
  rw [hcons, uses_cons, uses_cons (l := pairRefs pairs), Nat.add_assoc]

/-- A new pair takes over the name and the value; a pair that is there gives back its old value. -/
theorem uses_setPair (cname : CStr) (name val : Pointer) (pairs : List (CStr × Pointer × Pointer))
    (x : Nat) :
    match setPair cname name val pairs with
    | (pairs', none) => uses x (pairRefs pairs') = uses x (pairRefs pairs) + uses x [name] + uses x [val]
    | (pairs', some old) => uses x (pairRefs pairs') + uses x [old] =
        uses x (pairRefs pairs) + uses x [val] := by
  induction pairs with
  | nil =>
    simp only [setPair, uses_pairRefs_cons]
    omega
  | cons q pairs ih =>
    rw [setPair]
    split_ifs with hlt heq
    · simp only [uses_pairRefs_cons]
      omega
    · simp only [uses_pairRefs_cons]
      omega
    · rcases hset : setPair cname name val pairs with ⟨pairs', _ | old⟩
      · rw [hset] at ih
        simp only [uses_pairRefs_cons] at ih ⊢
        omega
      · rw [hset] at ih
        simp only [uses_pairRefs_cons] at ih ⊢
        omega

theorem mem_pairRefs_setPair {cname : CStr} {name val p : Pointer}
    {pairs : List (CStr × Pointer × Pointer)} (hp : p ∈ pairRefs (setPair cname name val pairs).1) :
    p = name ∨ p = val ∨ p ∈ pairRefs pairs := by
  induction pairs with
  | nil =>
    rcases List.mem_cons.mp hp with hp | hp
    · exact Or.inl hp
    · exact Or.inr (Or.inl (List.mem_singleton.mp hp))
  | cons q pairs ih =>
    have hcons : ∀ {q : CStr × Pointer × Pointer} {pairs : List (CStr × Pointer × Pointer)},
        p ∈ pairRefs (q :: pairs) ↔ p = q.2.1 ∨ p = q.2.2 ∨ p ∈ pairRefs pairs := by
      simp [pairRefs]
    rw [setPair] at hp
    split_ifs at hp with hlt heq
    · exact hcons.mp hp
    · rcases hcons.mp hp with hp | hp | hp
      · exact Or.inr (Or.inr (hcons.mpr (Or.inl hp)))
      · exact Or.inr (Or.inl hp)
      · exact Or.inr (Or.inr (hcons.mpr (Or.inr (Or.inr hp))))
    · rcases hcons.mp hp with hp | hp | hp
      · exact Or.inr (Or.inr (hcons.mpr (Or.inl hp)))
      · exact Or.inr (Or.inr (hcons.mpr (Or.inr (Or.inl hp))))
      · rcases ih hp with hp | hp | hp
        · exact Or.inl hp
        · exact Or.inr (Or.inl hp)
        · exact Or.inr (Or.inr (hcons.mpr (Or.inr (Or.inr hp))))

theorem mem_pairRefs_old {cname : CStr} {name val old : Pointer}
    {pairs : List (CStr × Pointer × Pointer)} (ho : (setPair cname name val pairs).2 = some old) :
    old ∈ pairRefs pairs := by
  induction pairs with
  | nil => cases ho
  | cons q pairs ih =>
    rw [setPair] at ho
    split_ifs at ho with hlt heq
    · obtain rfl : q.2.2 = old := Option.some.inj ho
      simp [pairRefs]
    · have hmem := ih ho
      simp only [pairRefs, List.flatMap_cons, List.mem_append] at hmem ⊢
      exact Or.inr hmem

/-- The pairs of an object that is not in the heap to be kept are changed. -/
theorem setPairs_runs {a : Nat} {b : Obj} {pairs : List (CStr × Pointer × Pointer)} {l l' : List Pointer}
    (hk : Keeps h₀ h) (ha : h₀.next ≤ a) (hb : Balanced h (l ++ owned)) (hl : h.live a = some b)
    (huses : ∀ x, uses x (pairRefs pairs) + uses x l' = uses x (Holder.refs b) + uses x l)
    (hclean : ∀ p ∈ pairRefs pairs ++ l', p.isErr = false) :
    Runs m h₀ (setPairs (.obj a) pairs) h fun _ h' =>
      Balanced h' (l' ++ owned) ∧ h'.live a = some (.nvl pairs) := by
  have hset := hb.setBody (c := .nvl pairs) hl huses hclean
  refine @Runs.det _ _ _ _ _ _ () (h.setBody a (.nvl pairs)) (fun _ => rfl) ⟨hk.next, fun i hi b' hb' => ?_⟩
    hset
  refine hk.body i hi b' ?_
  rwa [setBody, live_put_ne (by omega)] at hb'

theorem doNvlSet_runs {a : Nat} {cname : CStr} {name val : Pointer}
    {pairs : List (CStr × Pointer × Pointer)} (hk : Keeps h₀ h) (ha : h₀.next ≤ a)
    (hb : Balanced h (name :: val :: owned)) (hl : h.live a = some (.nvl pairs)) (hm : .obj a ∈ owned) :
    Runs m h₀ (doNvlSet (.obj a) cname name val) h fun r h' =>
      Balanced h' owned ∧ (∃ pairs', h'.live a = some (.nvl pairs')) ∧ (m = .chosen → r = none) := by
  have hclean : ∀ p ∈ pairRefs pairs, p.isErr = false := fun p hp => hb.clean a p (by rwa [refsAt_live hl])
  have hname : name.isErr = false := hb.owned name List.mem_cons_self
  have hval : val.isErr = false := hb.owned val (List.mem_cons_of_mem _ List.mem_cons_self)
  have hload : Runs m h₀ (nvlPairs (.obj a)) h fun r h' => r = pairs ∧ h' = h := by
    refine .det (fun g => ?_) hk ⟨rfl, rfl⟩
    show (h.deref Static.obj (.obj a) >>= _) >>= _ = _
    rw [deref_live hl]
    rfl
  refine hload.bind fun r h1 hk1 hr => ?_
  obtain ⟨rfl, rfl⟩ := hr
  have hkeep : ∀ {h' : RcHeap Obj} {l : List Pointer}, Keeps h1 h' → Balanced h' (l ++ owned) →
      h'.live a = some (.nvl r) := fun hk' hb' =>
    Keeps.live_owned hk' hb' (List.mem_append_right _ hm) (hb.lt_next hl) hl
  have huses := uses_setPair cname name val r
  have hmem : ∀ p ∈ pairRefs (setPair cname name val r).1, p.isErr = false := by
    intro p hp
    rcases mem_pairRefs_setPair hp with rfl | rfl | hp
    · exact hname
    · exact hval
    · exact hclean p hp
  rcases hset : setPair cname name val r with ⟨pairs', _ | old⟩
  · simp only [hset] at huses hmem ⊢
    refine (Runs.request (P := fun granted h' => h' = h1 ∧ (granted = false → m = .any)) hk1
      ⟨rfl, nofun⟩ fun hm => ⟨rfl, fun _ => hm⟩).bind fun granted h2 hk2 hg => ?_
    obtain ⟨rfl, hg⟩ := hg
    cases granted with
    | false =>
      refine ((valPutref_runs hb).base hk2).bind fun _ h3 hk3 h3' => ?_
      obtain ⟨hk23, hb3⟩ := h3'
      refine ((valPutref_runs hb3).base hk3).bind fun _ h4 hk4 h4' => ?_
      obtain ⟨hk34, hb4⟩ := h4'
      refine .pure hk4 ⟨hb4, ⟨r, hkeep (l := []) (hk23.trans hk34) hb4⟩, fun hm => ?_⟩
      rw [hg rfl] at hm
      cases hm
    | true =>
      refine (@setPairs_runs _ _ _ _ _ _ _ [name, val] [] hk2 ha hb hl (fun x => ?_) ?_).bind
        fun _ h3 hk3 h3' => .pure hk3 ⟨h3'.1, ⟨_, h3'.2⟩, fun _ => rfl⟩
      · have := huses x
        show uses x (pairRefs pairs') + 0 = uses x (pairRefs r) + uses x [name, val]
        rw [uses_cons (l := [val])]
        omega
      · simpa using hmem
  · simp only [hset] at huses hmem ⊢
    have hold : old.isErr = false := hclean old (mem_pairRefs_old (by rw [hset]))
    refine ((valPutref_runs hb).base hk1).bind fun _ h2 hk2 h2' => ?_
    obtain ⟨hk12, hb2⟩ := h2'
    have hl2 : h2.live a = some (.nvl r) := hkeep (l := [val]) hk12 hb2
    refine (@setPairs_runs _ _ _ _ _ _ _ [val] [old] hk2 ha hb2 hl2 huses ?_).bind fun _ h3 hk3 h3' => ?_
    · intro p hp
      rcases List.mem_append.mp hp with hp | hp
      · exact hmem p hp
      · rwa [List.mem_singleton.mp hp]
    obtain ⟨hb3, hl3⟩ := h3'
    refine ((valPutref_runs hb3).base hk3).bind fun _ h4 hk4 h4' => ?_
    obtain ⟨hk34, hb4⟩ := h4'
    exact .pure hk4 ⟨hb4, ⟨pairs', Keeps.live_owned hk34 hb4 hm (hb3.lt_next hl3) hl3⟩, fun _ => rfl⟩

/-- `nvl_set_pair` keeps nothing of its own but the references in the pair. -/
theorem nvlSetPair_runs {a : Nat} {cname : CStr} {name val : Pointer}
    {pairs : List (CStr × Pointer × Pointer)} (hk : Keeps h₀ h) (ha : h₀.next ≤ a)
    (hb : Balanced h owned) (hl : h.live a = some (.nvl pairs)) (hm : .obj a ∈ owned)
    (hname : name.isErr = false) (hnlive : ∀ x, name = .obj x → ∃ b, h.live x = some b)
    (hval : val ∈ owned) :
    Runs m h₀ (nvlSetPair (.obj a) cname name val) h fun r h' =>
      Balanced h' owned ∧ (∃ pairs', h'.live a = some (.nvl pairs')) ∧ (m = .chosen → r = none) := by
  refine ((valGetref_runs hb hname hnlive).base hk).bind fun _ h1 hk1 h1' => ?_
  obtain ⟨hk01, rfl, hb1⟩ := h1'
  have hlive : ∀ x, val = .obj x → ∃ b, h1.live x = some b := by
    rintro x rfl
    exact hb1.live_of_owned (List.mem_cons_of_mem _ hval)
  refine ((valGetref_runs hb1 (hb.owned val hval) hlive).base hk1).bind fun _ h2 hk2 h2' => ?_
  obtain ⟨hk12, rfl, hb2⟩ := h2'
  have hl2 := Keeps.live_owned (hk01.trans hk12) hb2
    (List.mem_cons_of_mem _ (List.mem_cons_of_mem _ hm)) (hb.lt_next hl) hl
  exact doNvlSet_runs hk2 ha (hb2.perm (.swap _ _ _)) hl2 hm

end Libjeffpc.Heap
