import Mathlib.Data.List.Chain
import Mathlib.Data.List.Nodup

/-!
# Rings of nodes

Every node has a node after it and a node before it. `Ring m s l` says that these links lead from `s` through
the nodes of `l` and back to `s`, in both directions.
-/

namespace Libjeffpc.Lib

structure Link (α : Type) where
  next : α
  prev : α

abbrev Links (α : Type) := α → Link α

variable {α : Type} [DecidableEq α] {m m' : Links α} {a b d n s x y : α} {l l' pre post : List α}

def Links.setNext (m : Links α) (a b : α) : Links α := fun n => if n = a then { m a with next := b } else m n

def Links.setPrev (m : Links α) (a b : α) : Links α := fun n => if n = a then { m a with prev := b } else m n

@[simp] theorem next_setNext : (m.setNext a b n).next = if n = a then b else (m n).next := by
  rw [Links.setNext]
  split <;> rfl

@[simp] theorem prev_setNext : (m.setNext a b n).prev = (m n).prev := by
  rw [Links.setNext]
  split
  · next h => rw [h]
  · rfl

@[simp] theorem next_setPrev : (m.setPrev a b n).next = (m n).next := by
  rw [Links.setPrev]
  split
  · next h => rw [h]
  · rfl

@[simp] theorem prev_setPrev : (m.setPrev a b n).prev = if n = a then b else (m n).prev := by
  rw [Links.setPrev]
  split <;> rfl

/-! ## Chains -/

/-- `b` is the node after `a`, and `a` the one before `b`. -/
def Linked (m : Links α) (a b : α) : Prop := (m a).next = b ∧ (m b).prev = a

omit [DecidableEq α] in
theorem chain_congr (h : l.IsChain (Linked m)) (hnext : ∀ a ∈ l.dropLast, (m' a).next = (m a).next)
    (hprev : ∀ b ∈ l.tail, (m' b).prev = (m b).prev) : l.IsChain (Linked m') := by
  induction l with
  | nil => exact .nil
  | cons a l ih =>
    cases l with
    | nil => exact .singleton a
    | cons b l =>
      obtain ⟨hab, hchain⟩ := List.isChain_cons_cons.mp h
      rw [List.dropLast_cons_cons, List.forall_mem_cons] at hnext
      rw [List.tail_cons, List.forall_mem_cons] at hprev
      refine List.isChain_cons_cons.mpr ⟨⟨hnext.1.trans hab.1, hprev.1.trans hab.2⟩, ih hchain hnext.2 ?_⟩
      exact fun c hc => hprev.2 c hc

omit [DecidableEq α] in
/-- The links of a node that is not the last one. -/
theorem chain_next (h : l.IsChain (Linked m)) (ha : a ∈ l.dropLast) : (m (m a).next).prev = a := by
  induction l with
  | nil => cases ha
  | cons c l ih =>
    cases l with
    | nil => cases ha
    | cons b l =>
      obtain ⟨hab, hchain⟩ := List.isChain_cons_cons.mp h
      rw [List.dropLast_cons_cons] at ha
      rcases List.mem_cons.mp ha with rfl | ha
      · rw [hab.1, hab.2]
      · exact ih hchain ha

omit [DecidableEq α] in
/-- The links of a node that is not the first one. -/
theorem chain_prev (h : l.IsChain (Linked m)) (hb : b ∈ l.tail) : (m (m b).prev).next = b := by
  induction l with
  | nil => cases hb
  | cons a l ih =>
    cases l with
    | nil => cases hb
    | cons c l =>
      obtain ⟨hab, hchain⟩ := List.isChain_cons_cons.mp h
      rcases List.mem_cons.mp hb with rfl | hb
      · rw [hab.2, hab.1]
      · exact ih hchain hb

/-! ## Rings -/

structure Ring (m : Links α) (s : α) (l : List α) : Prop where
  chain : (s :: (l ++ [s])).IsChain (Linked m)
  nodup : (s :: l).Nodup

section Frame

omit [DecidableEq α]

theorem Ring.congr (h : Ring m s l) (heq : ∀ n ∈ s :: l, m' n = m n) : Ring m' s l := by
  refine ⟨chain_congr h.chain (fun a ha => ?_) fun b hb => ?_, h.nodup⟩
  · rw [← List.cons_append, List.dropLast_concat] at ha
    rw [heq a ha]
  · rw [List.tail_cons, List.mem_append, List.mem_singleton] at hb
    rw [heq b (List.mem_cons.mpr hb.symm)]

/-- All nodes of a ring are linked in both directions. -/
theorem Ring.links (h : Ring m s l) (hn : n ∈ s :: l) : (m (m n).next).prev = n ∧ (m (m n).prev).next = n := by
  refine ⟨chain_next h.chain ?_, chain_prev h.chain ?_⟩
  · rwa [← List.cons_append, List.dropLast_concat]
  · rw [List.tail_cons, List.mem_append, List.mem_singleton]
    exact (List.mem_cons.mp hn).symm

/-- The nodes up to `a`, and those from `b` on. -/
structure Cut (s : α) (pre post A : List α) (a b : α) (B : List α) : Prop where
  before : s :: pre = A ++ [a]
  behind : post ++ [s] = b :: B

theorem cut_exists (s : α) (pre post : List α) : ∃ A a b B, Cut s pre post A a b B := by
  obtain ⟨A, a, hA⟩ := (List.eq_nil_or_concat' (s :: pre)).resolve_left (List.cons_ne_nil _ _)
  obtain ⟨b, B, hB⟩ := List.exists_cons_of_ne_nil (List.append_ne_nil_of_right_ne_nil post (List.cons_ne_nil s []))
  exact ⟨A, a, b, B, hA, hB⟩

section Cut

variable {A B : List α} (hc : Cut s pre post A a b B)

include hc

theorem Cut.all : s :: (pre ++ post ++ [s]) = (A ++ [a]) ++ b :: B := by
  rw [← hc.before, ← hc.behind, List.cons_append, List.append_assoc]

theorem Cut.dropLast : s :: (pre ++ post) = (A ++ [a]) ++ (b :: B).dropLast := by
  rw [← hc.before, ← hc.behind, List.dropLast_concat, List.cons_append]

/-- A ring is two chains that are linked. -/
theorem ring_cut : Ring m s (pre ++ post) ↔
    (A ++ [a]).IsChain (Linked m) ∧ (b :: B).IsChain (Linked m) ∧ Linked m a b ∧ (s :: (pre ++ post)).Nodup := by
  constructor
  · intro ⟨hchain, hnodup⟩
    rw [hc.all, List.isChain_append] at hchain
    refine ⟨hchain.1, hchain.2.1, hchain.2.2 a ?_ b rfl, hnodup⟩
    rw [List.getLast?_concat, Option.mem_some_iff]
  · intro ⟨hbefore, hbehind, hlinked, hnodup⟩
    refine ⟨?_, hnodup⟩
    rw [hc.all, List.isChain_append, List.getLast?_concat, List.head?_cons]
    refine ⟨hbefore, hbehind, fun a ha b hb => ?_⟩
    obtain rfl := Option.some.inj ha
    obtain rfl := Option.some.inj hb
    exact hlinked

theorem Ring.linked (h : Ring m s (pre ++ post)) : Linked m a b := ((ring_cut hc).mp h).2.2.1

variable (hnodup : (s :: (pre ++ post)).Nodup)

include hnodup

theorem Cut.not_mem_before : a ∉ A := by
  rw [hc.dropLast] at hnodup
  exact fun ha => List.disjoint_of_nodup_append (List.nodup_append'.mp hnodup).1 ha (List.mem_singleton_self a)

theorem Cut.nodup_tail : ((A ++ [a]).tail ++ b :: B).Nodup := by
  rw [← hc.before, ← hc.behind, List.tail_cons, ← List.append_assoc]
  exact List.nodup_append_comm.mp hnodup

/-- What is before `a` keeps its links. -/
theorem Cut.chain_before (h : (A ++ [a]).IsChain (Linked m)) (hnext : ∀ n ∈ A, n ≠ a → (m' n).next = (m n).next)
    (hprev : ∀ n ∈ pre, n ≠ b → (m' n).prev = (m n).prev) : (A ++ [a]).IsChain (Linked m') := by
  refine chain_congr h (fun n hn => ?_) fun n hn => ?_
  · rw [List.dropLast_concat] at hn
    exact hnext n hn fun heq => hc.not_mem_before hnodup (heq ▸ hn)
  · have hne : n ≠ b := by
      rintro rfl
      exact List.disjoint_of_nodup_append (hc.nodup_tail hnodup) hn List.mem_cons_self
    rw [← hc.before, List.tail_cons] at hn
    exact hprev n hn hne

/-- What is behind `b` keeps its links. -/
theorem Cut.chain_behind (h : (b :: B).IsChain (Linked m)) (hnext : ∀ n ∈ post, n ≠ a → (m' n).next = (m n).next)
    (hprev : ∀ n ∈ B, n ≠ b → (m' n).prev = (m n).prev) : (b :: B).IsChain (Linked m') := by
  refine chain_congr h (fun n hn => ?_) fun n hn => ?_
  · have hne : n ≠ a := by
      rintro rfl
      rw [hc.dropLast] at hnodup
      exact List.disjoint_of_nodup_append hnodup (List.mem_append_right _ (List.mem_singleton_self _)) hn
    rw [← hc.behind, List.dropLast_concat] at hn
    exact hnext n hn hne
  · refine hprev n hn fun heq => ?_
    exact (List.nodup_cons.mp (List.nodup_append'.mp (hc.nodup_tail hnodup)).2.1).1 (heq ▸ hn)

end Cut

theorem ring_nil : Ring m s [] ↔ m s = ⟨s, s⟩ := by
  have hc : Cut s [] [] [] s s [] := ⟨rfl, rfl⟩
  constructor
  · intro h
    obtain ⟨hnext, hprev⟩ := h.linked hc
    exact congrArg₂ Link.mk hnext hprev
  · intro h
    refine (ring_cut hc).mpr ⟨.singleton s, .singleton s, ?_, List.nodup_singleton s⟩
    rw [Linked, h]
    exact ⟨rfl, rfl⟩

/-- The node after `s` is `s` only if there is no other. -/
theorem Ring.next_eq_self (h : Ring m s l) : (m s).next = s ↔ l = [] := by
  cases l with
  | nil => exact iff_of_true (congrArg Link.next (ring_nil.mp h)) rfl
  | cons x l =>
    have hc : Cut s [] (x :: l) [] s x (l ++ [s]) := ⟨rfl, rfl⟩
    rw [(h.linked hc).1]
    exact iff_of_false (fun heq => (List.nodup_cons.mp h.nodup).1 (heq ▸ List.mem_cons_self)) nofun

/-- The links the other way round. -/
def Links.flip (m : Links α) : Links α := fun n => ⟨(m n).prev, (m n).next⟩

theorem Ring.flip (h : Ring m s l) : Ring m.flip s l.reverse := by
  constructor
  · have hrev : s :: (l.reverse ++ [s]) = (s :: (l ++ [s])).reverse := by simp
    rw [hrev, List.isChain_reverse]
    exact h.chain.imp fun a b hab => ⟨hab.2, hab.1⟩
  · obtain ⟨hs, hl⟩ := List.nodup_cons.mp h.nodup
    exact List.nodup_cons.mpr ⟨mt List.mem_reverse.mp hs, List.nodup_reverse.mpr hl⟩

end Frame

/-! ## A node more -/

/-- `x` between `a` and `b`. -/
def Links.insert (m : Links α) (a x b : α) : Links α := fun n =>
  if n = x then ⟨b, a⟩ else ⟨if n = a then x else (m n).next, if n = b then x else (m n).prev⟩

theorem insert_self : m.insert a x b x = ⟨b, a⟩ := if_pos rfl

theorem next_insert (h : n ≠ x) : (m.insert a x b n).next = if n = a then x else (m n).next := by
  rw [Links.insert, if_neg h]

theorem prev_insert (h : n ≠ x) : (m.insert a x b n).prev = if n = b then x else (m n).prev := by
  rw [Links.insert, if_neg h]

/-- All other nodes keep their links. -/
theorem insert_other (hx : n ≠ x) (ha : n ≠ a) (hb : n ≠ b) : m.insert a x b n = m n := by
  rw [Links.insert, if_neg hx, if_neg ha, if_neg hb]

section Insert

variable {A B : List α} (hc : Cut s pre post A a b B)

include hc

omit [DecidableEq α] in
theorem Cut.mem_before (hn : n ∈ A ++ [a]) : n ∈ s :: (pre ++ post) := by
  rw [hc.dropLast]
  exact List.mem_append_left _ hn

omit [DecidableEq α] in
theorem Cut.mem_behind (hn : n ∈ b :: B) : n ∈ s :: (pre ++ post) := by
  rw [← hc.behind, List.mem_append, List.mem_singleton] at hn
  rw [List.mem_cons, List.mem_append]
  exact hn.elim (fun hn => .inr (.inr hn)) .inl

theorem Ring.insert (h : Ring m s (pre ++ post)) (hx : x ∉ s :: (pre ++ post)) :
    Ring (m.insert a x b) s (pre ++ x :: post) := by
  obtain ⟨hbefore, hbehind, -, hnodup⟩ := (ring_cut hc).mp h
  have hne : ∀ n ∈ s :: (pre ++ post), n ≠ x := fun n hn heq => hx (heq ▸ hn)
  have hbefore' : (A ++ [a]).IsChain (Linked (m.insert a x b)) := by
    refine hc.chain_before hnodup hbefore (fun n hn hn' => ?_) fun n hn hn' => ?_
    · rw [next_insert (hne n (hc.mem_before (List.mem_append_left _ hn))), if_neg hn']
    · rw [prev_insert (hne n (List.mem_cons_of_mem _ (List.mem_append_left _ hn))), if_neg hn']
  have hbehind' : (b :: B).IsChain (Linked (m.insert a x b)) := by
    refine hc.chain_behind hnodup hbehind (fun n hn hn' => ?_) fun n hn hn' => ?_
    · rw [next_insert (hne n (List.mem_cons_of_mem _ (List.mem_append_right _ hn))), if_neg hn']
    · rw [prev_insert (hne n (hc.mem_behind (List.mem_cons_of_mem _ hn))), if_neg hn']
  have hax : Linked (m.insert a x b) a x := by
    have ha : a ≠ x := hne a (hc.mem_before (List.mem_append_right _ (List.mem_singleton_self a)))
    exact ⟨by rw [next_insert ha, if_pos rfl], congrArg Link.prev insert_self⟩
  have hxb : Linked (m.insert a x b) x b := by
    have hb : b ≠ x := hne b (hc.mem_behind List.mem_cons_self)
    exact ⟨congrArg Link.next insert_self, by rw [prev_insert hb, if_pos rfl]⟩
  have hc' : Cut s pre (x :: post) A a x (b :: B) := ⟨hc.before, by rw [List.cons_append, hc.behind]⟩
  refine (ring_cut hc').mpr ⟨hbefore', List.isChain_cons_cons.mpr ⟨hxb, hbehind'⟩, hax, ?_⟩
  rw [← List.cons_append]
  exact List.nodup_middle.mpr (List.nodup_cons.mpr ⟨hx, hnodup⟩)

end Insert

/-! ## A node less -/

/-- Without `x`, that was between `a` and `b`. -/
def Links.remove (m : Links α) (a x b : α) : Links α := fun n =>
  if n = x then ⟨x, x⟩ else ⟨if n = a then b else (m n).next, if n = b then a else (m n).prev⟩

theorem remove_self : m.remove a x b x = ⟨x, x⟩ := if_pos rfl

theorem next_remove (h : n ≠ x) : (m.remove a x b n).next = if n = a then b else (m n).next := by
  rw [Links.remove, if_neg h]

theorem prev_remove (h : n ≠ x) : (m.remove a x b n).prev = if n = b then a else (m n).prev := by
  rw [Links.remove, if_neg h]

theorem remove_other (hx : n ≠ x) (ha : n ≠ a) (hb : n ≠ b) : m.remove a x b n = m n := by
  rw [Links.remove, if_neg hx, if_neg ha, if_neg hb]

section Remove

variable {A B : List α} (hc : Cut s pre post A a b B)

include hc

theorem Ring.remove (h : Ring m s (pre ++ x :: post)) : Ring (m.remove a x b) s (pre ++ post) := by
  have hcx : Cut s pre (x :: post) A a x (b :: B) := ⟨hc.before, by rw [List.cons_append, hc.behind]⟩
  obtain ⟨hbefore, hbehind, -, hall⟩ := (ring_cut hcx).mp h
  obtain ⟨hx, hnodup⟩ : x ∉ s :: (pre ++ post) ∧ (s :: (pre ++ post)).Nodup := by
    rw [← List.cons_append] at hall
    exact List.nodup_cons.mp (List.nodup_middle.mp hall)
  have hne : ∀ n ∈ s :: (pre ++ post), n ≠ x := fun n hn heq => hx (heq ▸ hn)
  refine (ring_cut hc).mpr ⟨?_, ?_, ?_, hnodup⟩
  · refine hc.chain_before hnodup hbefore (fun n hn hn' => ?_) fun n hn hn' => ?_
    · rw [next_remove (hne n (hc.mem_before (List.mem_append_left _ hn))), if_neg hn']
    · rw [prev_remove (hne n (List.mem_cons_of_mem _ (List.mem_append_left _ hn))), if_neg hn']
  · refine hc.chain_behind hnodup hbehind.tail (fun n hn hn' => ?_) fun n hn hn' => ?_
    · rw [next_remove (hne n (List.mem_cons_of_mem _ (List.mem_append_right _ hn))), if_neg hn']
    · rw [prev_remove (hne n (hc.mem_behind (List.mem_cons_of_mem _ hn))), if_neg hn']
  · have ha : a ≠ x := hne a (hc.mem_before (List.mem_append_right _ (List.mem_singleton_self a)))
    have hb : b ≠ x := hne b (hc.mem_behind List.mem_cons_self)
    exact ⟨by rw [next_remove ha, if_pos rfl], by rw [prev_remove hb, if_pos rfl]⟩

end Remove

/-! ## The nodes of another ring -/

/-- The nodes from `x` to `y` of the ring of `s` are between `q` and `d`. -/
def Links.splice (m : Links α) (d q s x y : α) : Links α := fun n =>
  if n = s then ⟨s, s⟩
  else ⟨if n = q then x else if n = y then d else (m n).next, if n = x then q else if n = d then y else (m n).prev⟩

section Splice

variable {q : α} {P Q R : List α}

theorem splice_self : m.splice d q s x y s = ⟨s, s⟩ := if_pos rfl

theorem next_splice (h : n ≠ s) :
    (m.splice d q s x y n).next = if n = q then x else if n = y then d else (m n).next := by
  rw [Links.splice, if_neg h]

theorem prev_splice (h : n ≠ s) :
    (m.splice d q s x y n).prev = if n = x then q else if n = d then y else (m n).prev := by
  rw [Links.splice, if_neg h]

theorem splice_other (hs : n ≠ s) (hq : n ≠ q) (hy : n ≠ y) (hx : n ≠ x) (hd : n ≠ d) : m.splice d q s x y n = m n := by
  rw [Links.splice, if_neg hs, if_neg hq, if_neg hy, if_neg hx, if_neg hd]

theorem Ring.splice (hd : Ring m d l) (hs : Ring m s l') (hq : d :: l = P ++ [q]) (hx : l' = x :: Q)
    (hy : l' = R ++ [y]) (hdisj : ∀ n ∈ d :: l, n ∉ s :: l') : Ring (m.splice d q s x y) d (l ++ l') := by
  have hne : ∀ n ∈ d :: l, ∀ n' ∈ s :: l', n ≠ n' := fun n hn n' hn' heq => hdisj n hn (heq ▸ hn')
  have hnodup : (P ++ [q]).Nodup := hq ▸ hd.nodup
  obtain ⟨hsl, hnodup'⟩ := List.nodup_cons.mp hs.nodup
  have hqd : q ∈ d :: l := hq ▸ List.mem_append_right _ (List.mem_singleton_self q)
  have hdd : d ∈ d :: l := List.mem_cons_self
  have hss : s ∈ s :: l' := List.mem_cons_self
  have hxs : x ∈ l' := hx ▸ List.mem_cons_self
  have hys : y ∈ l' := hy ▸ List.mem_append_right _ (List.mem_singleton_self y)
  have hxs' : x ≠ s := fun heq => hsl (heq ▸ hxs)
  have hys' : y ≠ s := fun heq => hsl (heq ▸ hys)
  -- the nodes of the ring of `d`, without the way back
  have hfront : (P ++ [q]).IsChain (Linked m) := by
    have hchain := hd.chain
    rw [← List.cons_append, hq] at hchain
    exact (List.isChain_append.mp hchain).1
  have hfront' : (P ++ [q]).IsChain (Linked (m.splice d q s x y)) := by
    refine chain_congr hfront (fun n hn => ?_) fun n hn => ?_
    · rw [List.dropLast_concat] at hn
      have hnd : n ∈ d :: l := hq ▸ List.mem_append_left _ hn
      have hnq : n ≠ q := by
        rintro rfl
        exact List.disjoint_of_nodup_append hnodup hn (List.mem_singleton_self _)
      rw [next_splice (hne n hnd s hss), if_neg hnq, if_neg (hne n hnd y (List.mem_cons_of_mem _ hys))]
    · rw [← hq, List.tail_cons] at hn
      have hnd : n ∈ d :: l := List.mem_cons_of_mem _ hn
      have hnd' : n ≠ d := fun heq => (List.nodup_cons.mp hd.nodup).1 (heq ▸ hn)
      rw [prev_splice (hne n hnd s hss), if_neg (hne n hnd x (List.mem_cons_of_mem _ hxs)), if_neg hnd']
  -- the nodes that are moved
  have hmoved : l'.IsChain (Linked m) := (List.isChain_append.mp (List.isChain_cons.mp hs.chain).2).1
  have hmoved' : l'.IsChain (Linked (m.splice d q s x y)) := by
    refine chain_congr hmoved (fun n hn => ?_) fun n hn => ?_
    · have hmem : n ∈ l' := List.dropLast_subset _ hn
      have hns : n ≠ s := fun heq => hsl (heq ▸ hmem)
      have hny : n ≠ y := by
        rintro rfl
        rw [hy, List.dropLast_concat] at hn
        exact List.disjoint_of_nodup_append (hy ▸ hnodup') hn (List.mem_singleton_self _)
      rw [next_splice hns, if_neg (hne q hqd n (List.mem_cons_of_mem _ hmem)).symm, if_neg hny]
    · have hmem : n ∈ l' := List.mem_of_mem_tail hn
      have hns : n ≠ s := fun heq => hsl (heq ▸ hmem)
      have hnx : n ≠ x := by
        rintro rfl
        rw [hx, List.tail_cons] at hn
        exact (List.nodup_cons.mp (hx ▸ hnodup')).1 hn
      rw [prev_splice hns, if_neg hnx, if_neg (hne d hdd n (List.mem_cons_of_mem _ hmem)).symm]
  have hqx : Linked (m.splice d q s x y) q x := by
    refine ⟨by rw [next_splice (hne q hqd s hss), if_pos rfl], ?_⟩
    rw [prev_splice hxs', if_pos rfl]
  have hyd : Linked (m.splice d q s x y) y d := by
    constructor
    · rw [next_splice hys', if_neg (hne q hqd y (List.mem_cons_of_mem _ hys)).symm, if_pos rfl]
    · rw [prev_splice (hne d hdd s hss), if_neg (hne d hdd x (List.mem_cons_of_mem _ hxs)), if_pos rfl]
  have hback : (l' ++ [d]).IsChain (Linked (m.splice d q s x y)) := by
    refine List.isChain_append.mpr ⟨hmoved', .singleton d, fun a ha b hb => ?_⟩
    rw [hy, List.getLast?_concat] at ha
    obtain rfl := Option.some.inj ha
    obtain rfl := Option.some.inj hb
    exact hyd
  constructor
  · rw [List.append_assoc, ← List.cons_append, hq]
    refine List.isChain_append.mpr ⟨hfront', hback, fun a ha b hb => ?_⟩
    rw [List.getLast?_concat] at ha
    rw [hx, List.cons_append, List.head?_cons] at hb
    obtain rfl := Option.some.inj ha
    obtain rfl := Option.some.inj hb
    exact hqx
  · rw [← List.cons_append]
    exact List.nodup_append'.mpr ⟨hd.nodup, hnodup', fun n hn hn' => hdisj n hn (List.mem_cons_of_mem _ hn')⟩

end Splice

end Libjeffpc.Lib
