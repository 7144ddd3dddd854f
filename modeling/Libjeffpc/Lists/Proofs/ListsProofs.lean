import Libjeffpc.Lists.Lists

/-!
# Linked lists are sequences

Each operation is one change of a ring: a node more, a node less, or all nodes of another ring. The rings of
the other lists keep their links, since no two lists share a node.
-/

namespace Libjeffpc.Lists

open Lib

/-! ## What the code does to the links -/

section Slist

variable {m : Mem} {n a b x y cur new node dst src q s : UInt64}

theorem link_ext {l l' : Link UInt64} (hnext : l.next = l'.next) (hprev : l.prev = l'.prev) : l = l' :=
  match l, l', hnext, hprev with
  | ⟨_, _⟩, ⟨_, _⟩, rfl, rfl => rfl

theorem slistInit_self : slistInit m node node = ⟨node, node⟩ := by
  apply link_ext <;> simp [slistInit]

theorem slistInit_other (h : n ≠ node) : slistInit m node n = m n := by
  apply link_ext <;> simp [slistInit, h]

theorem slistInsertAfter_eq (hcur : new ≠ cur) (hnext : new ≠ (m cur).next) :
    slistInsertAfter m cur new = m.insert cur new (m cur).next := by
  funext n
  by_cases hn : n = new
  · subst hn
    rw [insert_self]
    apply link_ext <;> simp [slistInsertAfter, hcur, hnext]
  · apply link_ext
    · rw [next_insert hn]
      simp [slistInsertAfter, hn]
    · rw [prev_insert hn]
      simp [slistInsertAfter, hn, hcur]

theorem slistInsertBefore_eq (hcur : new ≠ cur) (hprev : new ≠ (m cur).prev) :
    slistInsertBefore m cur new = m.insert (m cur).prev new cur := by
  funext n
  by_cases hn : n = new
  · subst hn
    rw [insert_self]
    apply link_ext <;> simp [slistInsertBefore, hcur, hprev]
  · apply link_ext
    · rw [next_insert hn]
      simp [slistInsertBefore, hn, hcur]
    · rw [prev_insert hn]
      simp [slistInsertBefore, hn]

theorem slistRemove_eq (hprev : node ≠ (m node).prev) (hnext : node ≠ (m node).next) :
    slistRemove m node = m.remove (m node).prev node (m node).next := by
  funext n
  by_cases hn : n = node
  · subst hn
    rw [remove_self, slistRemove, slistInit_self]
  · apply link_ext
    · rw [next_remove hn]
      simp [slistRemove, slistInit_other hn, hnext]
    · rw [prev_remove hn]
      simp [slistRemove, slistInit_other hn]

theorem slistMoveTail_eq (hsrc : (m src).next ≠ src) (hq : src ≠ (m dst).prev) (hx : (m src).next ≠ dst)
    (hqy : (m dst).prev ≠ (m src).prev) :
    slistMoveTail m dst src = m.splice dst (m dst).prev src (m src).next (m src).prev := by
  funext n
  rw [slistMoveTail, slistIsEmpty, beq_eq_false_iff_ne.mpr hsrc]
  by_cases hn : n = src
  · subst hn
    rw [splice_self]
    exact slistInit_self
  · apply link_ext
    · rw [next_splice hn]
      by_cases hnq : n = (m dst).prev
      · simp [slistInit_other hq.symm, hq, hsrc.symm, hnq, hqy]
      · simp [slistInit_other hn, hq, hsrc.symm, hnq]
    · rw [prev_splice hn]
      by_cases hnx : n = (m src).next
      · simp [slistInit_other hsrc, hq, hsrc.symm, hnx, hx]
      · simp [slistInit_other hn, hq, hsrc.symm, hnx]

end Slist

/-! ## What the code does to a ring -/

section Ring

variable {m : Mem} {s d a b x n : UInt64} {pre post A B l l' : List UInt64}

theorem insert_ring (hc : Cut s pre post A a b B) (h : Ring m s (pre ++ post)) (hx : x ∉ s :: (pre ++ post)) :
    slistInsertAfter m a x = m.insert a x b ∧ slistInsertBefore m b x = m.insert a x b := by
  obtain ⟨hnext, hprev⟩ := h.linked hc
  have hxa : x ≠ a := fun heq => hx (heq ▸ hc.mem_before (List.mem_append_right _ (List.mem_singleton_self a)))
  have hxb : x ≠ b := fun heq => hx (heq ▸ hc.mem_behind List.mem_cons_self)
  rw [slistInsertAfter_eq hxa (by rwa [hnext]), slistInsertBefore_eq hxb (by rwa [hprev]), hnext, hprev]
  exact ⟨rfl, rfl⟩

theorem remove_ring (hc : Cut s pre post A a b B) (h : Ring m s (pre ++ x :: post)) :
    slistRemove m x = m.remove a x b := by
  have hcx : Cut s pre (x :: post) A a x (b :: B) := ⟨hc.before, by rw [List.cons_append, hc.behind]⟩
  have hcx' : Cut s (pre ++ [x]) post (s :: pre) x b B := ⟨rfl, hc.behind⟩
  have h' : Ring m s ((pre ++ [x]) ++ post) := by rwa [List.append_assoc]
  obtain ⟨-, hprev⟩ := h.linked hcx
  obtain ⟨hnext, -⟩ := h'.linked hcx'
  have hx : x ∉ s :: (pre ++ post) := by
    have hnodup := h.nodup
    rw [← List.cons_append] at hnodup
    exact (List.nodup_cons.mp (List.nodup_middle.mp hnodup)).1
  have hxa : x ≠ a := fun heq => hx (heq ▸ hc.mem_before (List.mem_append_right _ (List.mem_singleton_self a)))
  have hxb : x ≠ b := fun heq => hx (heq ▸ hc.mem_behind List.mem_cons_self)
  rw [slistRemove_eq (by rwa [hprev]) (by rwa [hnext]), hprev, hnext]

/-- All other nodes keep their links. -/
theorem remove_ring_other (hc : Cut s pre post A a b B) (hn : n ∉ s :: (pre ++ x :: post)) :
    m.remove a x b n = m n := by
  have hsub : ∀ c ∈ s :: (pre ++ post), n ≠ c := by
    rintro c hc rfl
    refine hn ?_
    rw [List.mem_cons, List.mem_append] at hc ⊢
    exact hc.imp_right (Or.imp_right (List.mem_cons_of_mem _))
  have hx : n ≠ x := by
    rintro rfl
    exact hn (List.mem_cons_of_mem _ (List.mem_append_right _ List.mem_cons_self))
  exact remove_other hx (hsub a (hc.mem_before (List.mem_append_right _ (List.mem_singleton_self a))))
    (hsub b (hc.mem_behind List.mem_cons_self))

theorem insert_ring_other (hc : Cut s pre post A a b B) (hn : n ∉ s :: (pre ++ post)) (hx : n ≠ x) :
    m.insert a x b n = m n := by
  have hsub : ∀ c ∈ s :: (pre ++ post), n ≠ c := fun c hc heq => hn (heq ▸ hc)
  exact insert_other hx (hsub a (hc.mem_before (List.mem_append_right _ (List.mem_singleton_self a))))
    (hsub b (hc.mem_behind List.mem_cons_self))

theorem moveTail_ring (hd : Ring m d l) (hs : Ring m s l') (hdisj : ∀ n ∈ d :: l, n ∉ s :: l') :
    Ring (slistMoveTail m d s) d (l ++ l') ∧ Ring (slistMoveTail m d s) s [] ∧
      ∀ n ∉ d :: l, n ∉ s :: l' → slistMoveTail m d s n = m n := by
  rcases eq_or_ne l' [] with rfl | hne
  · have hempty : slistIsEmpty m s = true := beq_iff_eq.mpr (hs.next_eq_self.mpr rfl)
    rw [slistMoveTail, hempty, if_pos rfl, List.append_nil]
    exact ⟨hd, hs, fun _ _ _ => rfl⟩
  · obtain ⟨x, Q, hx⟩ := List.exists_cons_of_ne_nil hne
    obtain ⟨R, y, hy⟩ := (List.eq_nil_or_concat' l').resolve_left hne
    obtain ⟨P, q, hq⟩ := (List.eq_nil_or_concat' (d :: l)).resolve_left (List.cons_ne_nil _ _)
    have hcd : Cut d l [] P q d [] := ⟨hq, rfl⟩
    have hcx : Cut s [] l' [] s x (Q ++ [s]) := ⟨rfl, by rw [hx]; rfl⟩
    have hcy : Cut s l' [] (s :: R) y s [] := ⟨by rw [hy]; rfl, rfl⟩
    have hqd : (m d).prev = q := ((by rwa [List.append_nil] : Ring m d (l ++ [])).linked hcd).2
    have hsx : (m s).next = x := (hs.linked hcx).1
    have hsy : (m s).prev = y := ((by rwa [List.append_nil] : Ring m s (l' ++ [])).linked hcy).2
    have hq' : q ∈ d :: l := hq ▸ List.mem_append_right _ (List.mem_singleton_self q)
    have hx' : x ∈ l' := hx ▸ List.mem_cons_self
    have hy' : y ∈ l' := hy ▸ List.mem_append_right _ (List.mem_singleton_self y)
    have hsne : (m s).next ≠ s := mt hs.next_eq_self.mp hne
    have heq : slistMoveTail m d s = m.splice d q s x y := by
      rw [slistMoveTail_eq hsne, hqd, hsx, hsy]
      · intro heq
        exact hdisj q hq' (hqd ▸ heq ▸ List.mem_cons_self)
      · intro heq
        exact hdisj d List.mem_cons_self (heq ▸ hsx ▸ List.mem_cons_of_mem _ hx')
      · intro heq
        rw [hqd, hsy] at heq
        exact hdisj q hq' (List.mem_cons_of_mem _ (heq ▸ hy'))
    rw [heq]
    refine ⟨hd.splice hs hq hx hy hdisj, ring_nil.mpr splice_self, fun n hn hn' => ?_⟩
    refine splice_other ?_ ?_ ?_ ?_ ?_
    · exact fun h => hn' (h ▸ List.mem_cons_self)
    · exact fun h => hn (h ▸ hq')
    · exact fun h => hn' (h ▸ List.mem_cons_of_mem _ hy')
    · exact fun h => hn' (h ▸ List.mem_cons_of_mem _ hx')
    · exact fun h => hn (h ▸ List.mem_cons_self)

end Ring

/-! ## One list -/

section List

variable {m : Mem} {list : LinkedList} {l pre post : List UInt64} {x ref : UInt64}

abbrev nodes (list : LinkedList) (l : List UInt64) : List UInt64 := l.map (listObj2node list)

theorem nodup_of_ring (h : Ring m list.head (nodes list l)) : l.Nodup := (List.nodup_cons.mp h.nodup).2.of_map

theorem flatMap_of_not_mem {f : UInt64 → List UInt64} (hf : ∀ y ≠ ref, f y = [y]) (href : ref ∉ l) :
    l.flatMap f = l := by
  induction l with
  | nil => rfl
  | cons y l ih =>
    rw [List.mem_cons, not_or] at href
    rw [List.flatMap_cons, hf y (Ne.symm href.1), ih href.2, List.singleton_append]

/-- Where a place is. -/
theorem insertAt_spec (h : Ring m list.head (nodes list l)) (hx : listObj2node list x ∉ list.head :: nodes list l)
    (place : Place) (hplace : match place with
      | .head | .tail => True
      | .before ref | .after ref => ref ∈ l) :
    ∃ pre post A a b B, l = pre ++ post ∧ Seqs.insert l x place = pre ++ x :: post ∧
      Cut list.head (nodes list pre) (nodes list post) A a b B ∧
      insertAt m list x place = m.insert a (listObj2node list x) b := by
  have hat : ∀ {pre post A a b B}, l = pre ++ post → Cut list.head (nodes list pre) (nodes list post) A a b B →
      slistInsertAfter m a (listObj2node list x) = m.insert a (listObj2node list x) b ∧
      slistInsertBefore m b (listObj2node list x) = m.insert a (listObj2node list x) b := by
    rintro pre post A a b B rfl hc
    rw [nodes, List.map_append] at h hx
    exact insert_ring hc h hx
  have hsplit : ∀ {ref}, ref ∈ l → ∃ pre post, l = pre ++ ref :: post ∧ ref ∉ pre ∧ ref ∉ post := by
    intro ref href
    obtain ⟨pre, post, rfl⟩ := List.append_of_mem href
    have hnodup := List.nodup_cons.mp (List.nodup_middle.mp (nodup_of_ring h))
    rw [List.mem_append, not_or] at hnodup
    exact ⟨pre, post, rfl, hnodup.1⟩
  cases place with
  | head =>
    obtain ⟨b, B, hb⟩ := List.exists_cons_of_ne_nil (List.append_ne_nil_of_right_ne_nil (nodes list l) (List.cons_ne_nil list.head []))
    have hc : Cut list.head (nodes list []) (nodes list l) [] list.head b B := ⟨rfl, hb⟩
    exact ⟨[], l, [], _, b, B, rfl, rfl, hc, (hat rfl hc).1⟩
  | tail =>
    obtain ⟨A, a, ha⟩ := (List.eq_nil_or_concat' (list.head :: nodes list l)).resolve_left (List.cons_ne_nil _ _)
    have hc : Cut list.head (nodes list l) (nodes list []) A a list.head [] := ⟨ha, rfl⟩
    have hl : l = l ++ [] := (List.append_nil l).symm
    exact ⟨l, [], A, a, _, [], hl, rfl, hc, (hat hl hc).2⟩
  | before ref =>
    obtain ⟨pre, post, hl, hpre, hpost⟩ := hsplit hplace
    obtain ⟨A, a, ha⟩ := (List.eq_nil_or_concat' (list.head :: nodes list pre)).resolve_left (List.cons_ne_nil _ _)
    have hc : Cut list.head (nodes list pre) (nodes list (ref :: post)) A a (listObj2node list ref)
        (nodes list post ++ [list.head]) := ⟨ha, rfl⟩
    refine ⟨pre, ref :: post, A, a, _, _, hl, ?_, hc, (hat hl hc).2⟩
    have hne : ∀ y ≠ ref, (if y = ref then [x, y] else [y]) = [y] := fun y hy => if_neg hy
    rw [Seqs.insert, hl, List.flatMap_append, List.flatMap_cons, flatMap_of_not_mem hne hpre,
      flatMap_of_not_mem hne hpost, if_pos rfl]
    rfl
  | after ref =>
    obtain ⟨pre, post, hl, hpre, hpost⟩ := hsplit hplace
    obtain ⟨b, B, hb⟩ := List.exists_cons_of_ne_nil (List.append_ne_nil_of_right_ne_nil (nodes list post) (List.cons_ne_nil list.head []))
    have hc : Cut list.head (nodes list (pre ++ [ref])) (nodes list post) (list.head :: nodes list pre)
        (listObj2node list ref) b B := ⟨by rw [nodes, List.map_append]; rfl, hb⟩
    have hl' : l = (pre ++ [ref]) ++ post := by rw [hl, List.append_assoc, List.singleton_append]
    refine ⟨pre ++ [ref], post, _, _, b, B, hl', ?_, hc, (hat hl' hc).1⟩
    have hne : ∀ y ≠ ref, (if y = ref then [y, x] else [y]) = [y] := fun y hy => if_neg hy
    rw [Seqs.insert, hl, List.flatMap_append, List.flatMap_cons, flatMap_of_not_mem hne hpre,
      flatMap_of_not_mem hne hpost, if_pos rfl, List.append_assoc]
    rfl

/-- Only the list and the new node are changed. -/
theorem insertAt_ring (h : Ring m list.head (nodes list l)) (hx : listObj2node list x ∉ list.head :: nodes list l)
    (place : Place) (hplace : match place with
      | .head | .tail => True
      | .before ref | .after ref => ref ∈ l) :
    Ring (insertAt m list x place) list.head (nodes list (Seqs.insert l x place)) ∧
      ∀ n ∉ list.head :: nodes list l, n ≠ listObj2node list x → insertAt m list x place n = m n := by
  obtain ⟨pre, post, A, a, b, B, rfl, hinsert, hc, hrun⟩ := insertAt_spec h hx place hplace
  rw [nodes, List.map_append] at h hx
  rw [hrun, hinsert, nodes, nodes, List.map_append, List.map_append, List.map_cons]
  exact ⟨h.insert hc hx, fun n hn hnx => insert_ring_other hc hn hnx⟩

/-- Only the list is changed, and the removed node leads to itself. -/
theorem slistRemove_ring (h : Ring m list.head (nodes list (pre ++ x :: post))) :
    Ring (slistRemove m (listObj2node list x)) list.head (nodes list (pre ++ post)) ∧
      slistRemove m (listObj2node list x) (listObj2node list x) = ⟨listObj2node list x, listObj2node list x⟩ ∧
      ∀ n ∉ list.head :: nodes list (pre ++ x :: post), slistRemove m (listObj2node list x) n = m n := by
  obtain ⟨A, a, b, B, hc⟩ := cut_exists list.head (nodes list pre) (nodes list post)
  rw [nodes, List.map_append, List.map_cons] at h
  rw [remove_ring hc h, nodes, nodes, List.map_append, List.map_append, List.map_cons]
  exact ⟨h.remove hc, remove_self, fun n hn => remove_ring_other hc hn⟩

end List

end Libjeffpc.Lists
