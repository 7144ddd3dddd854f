import Libjeffpc.Lists.Proofs.ListsProofs

/-!
# Runs of list operations

`Valid` is what holds of the sequences alone: no item is on two lists, and the nodes that have been removed are
on none. `Holds` is what ties the memory to them. Every operation keeps both.
-/

namespace Libjeffpc.Lists

open Lib

variable {ι : Type} {w : Program ι} {m m' : Mem} {r r' : Seqs ι} {i j : ι} {n x : UInt64} {l : List UInt64}

structure Valid (w : Program ι) (r : Seqs ι) : Prop where
  item : ∀ i, ∀ x ∈ r.get i, w.Item x
  disjoint : ∀ i j, i ≠ j → (r.get i).Disjoint (r.get j)
  removed : ∀ n ∈ r.removed, (∃ k x, w.Item x ∧ n = listObj2node (w.list k) x) ∧ ∀ i, n ∉ nodes (w.list i) (r.get i)

structure Holds (w : Program ι) (m : Mem) (r : Seqs ι) : Prop where
  ring : ∀ i, (r.lists i).isSome → Ring m (w.list i).head (nodes (w.list i) (r.get i))
  removed : ∀ n ∈ r.removed, m n = ⟨n, n⟩

/-! ## No two lists share a node -/

theorem node_ne_of_not_mem (h : Valid w r) (hx : w.Item x) (hoff : x ∉ r.get j) :
    listObj2node (w.list i) x ∉ (w.list j).head :: nodes (w.list j) (r.get j) := by
  rw [List.mem_cons, not_or]
  refine ⟨w.node_ne_head i j x hx, fun hmem => ?_⟩
  obtain ⟨y, hy, heq⟩ := List.mem_map.mp hmem
  exact hoff (w.node_inj i j x y hx (h.item j y hy) heq.symm ▸ hy)

theorem nodes_disjoint (h : Valid w r) (hij : i ≠ j) (hn : n ∈ (w.list i).head :: nodes (w.list i) (r.get i)) :
    n ∉ (w.list j).head :: nodes (w.list j) (r.get j) := by
  rcases List.mem_cons.mp hn with rfl | hn
  · rw [List.mem_cons, not_or]
    refine ⟨fun heq => hij (w.head_inj i j heq), fun hmem => ?_⟩
    obtain ⟨y, hy, heq⟩ := List.mem_map.mp hmem
    exact w.node_ne_head j i y (h.item j y hy) heq
  · obtain ⟨y, hy, rfl⟩ := List.mem_map.mp hn
    exact node_ne_of_not_mem h (h.item i y hy) (h.disjoint i j hij hy)

theorem removed_not_mem (h : Valid w r) (hn : n ∈ r.removed) :
    n ∉ (w.list i).head :: nodes (w.list i) (r.get i) := by
  obtain ⟨⟨k, x, hx, rfl⟩, hoff⟩ := h.removed n hn
  rw [List.mem_cons, not_or]
  exact ⟨w.node_ne_head k i x hx, hoff i⟩

/-- Lists that none of the changed nodes is on stay as they are. -/
theorem Holds.congr (h : Holds w m r) (hj : (r.lists j).isSome)
    (hsame : ∀ n ∈ (w.list j).head :: nodes (w.list j) (r.get j), m' n = m n) :
    Ring m' (w.list j).head (nodes (w.list j) (r.get j)) := (h.ring j hj).congr hsame

section Update

variable [DecidableEq ι]

namespace Seqs

theorem lists_set : (r.set i l).lists = Function.update r.lists i (some l) := rfl

theorem get_set_self : (r.set i l).get i = l := by rw [get, lists_set, Function.update_self, Option.getD_some]

theorem get_set_other (h : j ≠ i) : (r.set i l).get j = r.get j := by rw [get, get, lists_set, Function.update_of_ne h]

theorem isSome_set : ((r.set i l).lists j).isSome ↔ j = i ∨ (r.lists j).isSome := by
  rw [lists_set]
  rcases eq_or_ne j i with rfl | h
  · rw [Function.update_self]
    exact iff_of_true rfl (.inl rfl)
  · rw [Function.update_of_ne h, or_iff_right h]

omit [DecidableEq ι] in
theorem lists_eq (h : (r.lists i).isSome) : r.lists i = some (r.get i) := by
  obtain ⟨l, hl⟩ := Option.isSome_iff_exists.mp h
  rw [get, hl, Option.getD_some]

theorem set_get (h : (r.lists i).isSome) : r.set i (r.get i) = r := by
  rw [set, ← lists_eq h, Function.update_eq_self]

end Seqs

/-- One list is changed to `l`, and nothing but its nodes and those in `new`. -/
theorem Holds.set (hv : Valid w r) (h : Holds w m r) (new : List UInt64) (hr : r'.lists = (r.set i l).lists)
    (hring : Ring m' (w.list i).head (nodes (w.list i) l))
    (hother : ∀ n ∉ (w.list i).head :: nodes (w.list i) (r.get i), n ∉ new → m' n = m n)
    (hnew : ∀ n ∈ new, ∀ j, n ∉ (w.list j).head :: nodes (w.list j) (r.get j))
    (hremoved : ∀ n ∈ r'.removed, n ∈ r.removed ∧ n ∉ new ∨ m' n = ⟨n, n⟩) : Holds w m' r' := by
  have hget : ∀ j, r'.get j = (r.set i l).get j := fun j => by rw [Seqs.get, Seqs.get, hr]
  refine ⟨fun j hj => ?_, fun n hn => ?_⟩
  · rw [hget]
    rcases eq_or_ne j i with rfl | hji
    · rw [Seqs.get_set_self]
      exact hring
    · rw [hr, Seqs.isSome_set, or_iff_right hji] at hj
      rw [Seqs.get_set_other hji]
      refine h.congr hj fun n hn => hother n (nodes_disjoint hv hji hn) fun hmem => ?_
      exact hnew n hmem j hn
  · rcases hremoved n hn with ⟨hold, hnot⟩ | hself
    · rw [hother n (removed_not_mem hv hold) hnot]
      exact h.removed n hold
    · exact hself

/-- The sequences after one list is changed to `l`. -/
theorem Valid.set (hv : Valid w r) (hr : r'.lists = (r.set i l).lists) (hitem : ∀ x ∈ l, w.Item x)
    (hdisj : ∀ j ≠ i, l.Disjoint (r.get j))
    (hremoved : ∀ n ∈ r'.removed, n ∉ nodes (w.list i) l ∧
      (n ∈ r.removed ∨ ∃ x ∈ r.get i, n = listObj2node (w.list i) x)) : Valid w r' := by
  have hget : ∀ j, r'.get j = (r.set i l).get j := fun j => by rw [Seqs.get, Seqs.get, hr]
  refine ⟨fun j x hx => ?_, fun j k hjk => ?_, fun n hn => ?_⟩
  · rw [hget] at hx
    rcases eq_or_ne j i with rfl | hji
    · rw [Seqs.get_set_self] at hx
      exact hitem x hx
    · rw [Seqs.get_set_other hji] at hx
      exact hv.item j x hx
  · rw [hget, hget]
    rcases eq_or_ne j i with rfl | hji
    · rw [Seqs.get_set_self, Seqs.get_set_other hjk.symm]
      exact hdisj k hjk.symm
    · rcases eq_or_ne k i with rfl | hki
      · rw [Seqs.get_set_self, Seqs.get_set_other hji]
        exact (hdisj j hji).symm
      · rw [Seqs.get_set_other hji, Seqs.get_set_other hki]
        exact hv.disjoint j k hjk
  · obtain ⟨hnot, hold⟩ := hremoved n hn
    have hoff : (∃ k x, w.Item x ∧ n = listObj2node (w.list k) x) ∧ ∀ j ≠ i, n ∉ nodes (w.list j) (r.get j) := by
      rcases hold with hold | ⟨x, hx, rfl⟩
      · exact ⟨(hv.removed n hold).1, fun j _ => (hv.removed n hold).2 j⟩
      · refine ⟨⟨i, x, hv.item i x hx, rfl⟩, fun j hji hmem => ?_⟩
        exact node_ne_of_not_mem hv (hv.item i x hx) (hv.disjoint i j hji.symm hx) (List.mem_cons_of_mem _ hmem)
    refine ⟨hoff.1, fun j => ?_⟩
    rw [hget]
    rcases eq_or_ne j i with rfl | hji
    · rwa [Seqs.get_set_self]
    · rw [Seqs.get_set_other hji]
      exact hoff.2 j hji

/-! ## Steps -/

section Steps

variable {pre post : List UInt64} {place : Place}

theorem create_step (hv : Valid w r) (h : Holds w m r) (hi : r.lists i = none) :
    Valid w (r.set i []) ∧ Holds w (slistInit m (w.list i).head) (r.set i []) := by
  have hget : r.get i = [] := by rw [Seqs.get, hi, Option.getD_none]
  constructor
  · exact hv.set rfl (by simp) (by simp) fun n hn => ⟨by simp, .inl hn⟩
  · refine h.set hv [] rfl (ring_nil.mpr slistInit_self) (fun n hn _ => ?_) (by simp) fun n hn => ?_
    · exact slistInit_other fun heq => hn (heq ▸ List.mem_cons_self)
    · exact .inl ⟨hn, List.not_mem_nil⟩

theorem insert_step (hv : Valid w r) (h : Holds w m r) (hi : (r.lists i).isSome) (hx : w.Item x)
    (hoff : ∀ j, x ∉ r.get j) (hplace : match place with
      | .head | .tail => True
      | .before ref | .after ref => ref ∈ r.get i) :
    Valid w (r.after w (.insert i place x)) ∧ Holds w (insertAt m (w.list i) x place) (r.after w (.insert i place x)) := by
  have hnode : ∀ j, listObj2node (w.list i) x ∉ (w.list j).head :: nodes (w.list j) (r.get j) :=
    fun j => node_ne_of_not_mem hv hx (hoff j)
  obtain ⟨hring, hother⟩ := insertAt_ring (h.ring i hi) (hnode i) place hplace
  obtain ⟨pre, post, -, -, -, -, hl, hinsert, -⟩ := insertAt_spec (h.ring i hi) (hnode i) place hplace
  have hmem : ∀ y, y ∈ Seqs.insert (r.get i) x place ↔ y = x ∨ y ∈ r.get i := by
    intro y
    rw [hinsert, hl, List.mem_append, List.mem_append, List.mem_cons, or_left_comm]
  have hremoved : ∀ n ∈ (r.after w (.insert i place x)).removed, n ∈ r.removed ∧ n ≠ listObj2node (w.list i) x := by
    intro n hn
    rw [Seqs.after, List.mem_filter, decide_eq_true_iff] at hn
    exact hn
  constructor
  · refine hv.set rfl (fun y hy => ?_) (fun j hji y hy hy' => ?_) fun n hn => ⟨?_, .inl (hremoved n hn).1⟩
    · rcases (hmem y).mp hy with rfl | hy
      · exact hx
      · exact hv.item i y hy
    · rcases (hmem y).mp hy with rfl | hy
      · exact hoff j hy'
      · exact hv.disjoint i j hji.symm hy hy'
    · intro hn'
      obtain ⟨y, hy, heq⟩ := List.mem_map.mp hn'
      rcases (hmem y).mp hy with rfl | hy
      · exact (hremoved n hn).2 heq.symm
      · exact (hv.removed n (hremoved n hn).1).2 i (heq ▸ List.mem_map_of_mem hy)
  · refine h.set hv [listObj2node (w.list i) x] rfl hring (fun n hn hn' => ?_) (fun n hn j => ?_) fun n hn => ?_
    · exact hother n hn fun heq => hn' (List.mem_singleton.mpr heq)
    · rw [List.mem_singleton.mp hn]
      exact hnode j
    · exact .inl ⟨(hremoved n hn).1, fun hmem => (hremoved n hn).2 (List.mem_singleton.mp hmem)⟩

theorem unlink_step (hv : Valid w r) (h : Holds w m r) (hi : (r.lists i).isSome) (hl : r.get i = pre ++ x :: post) :
    Valid w (r.unlink w i [x] (pre ++ post)) ∧
      Holds w (slistRemove m (listObj2node (w.list i) x)) (r.unlink w i [x] (pre ++ post)) := by
  have hring := h.ring i hi
  rw [hl] at hring
  obtain ⟨hring', hself, hother⟩ := slistRemove_ring hring
  have hnot : listObj2node (w.list i) x ∉ nodes (w.list i) (pre ++ post) := by
    have hnodup := (List.nodup_cons.mp hring.nodup).2
    rw [nodes, List.map_append, List.map_cons] at hnodup
    rw [nodes, List.map_append]
    exact (List.nodup_cons.mp (List.nodup_middle.mp hnodup)).1
  have hsub : ∀ y ∈ pre ++ post, y ∈ r.get i := by
    intro y hy
    rw [hl]
    rcases List.mem_append.mp hy with hy | hy
    · exact List.mem_append_left _ hy
    · exact List.mem_append_right _ (List.mem_cons_of_mem _ hy)
  have hx : x ∈ r.get i := hl ▸ List.mem_append_right _ List.mem_cons_self
  constructor
  · refine hv.set rfl (fun y hy => hv.item i y (hsub y hy)) (fun j hji y hy => ?_) fun n hn => ?_
    · exact hv.disjoint i j hji.symm (hsub y hy)
    · rcases List.mem_append.mp hn with hn | hn
      · refine ⟨fun hmem => ?_, .inl hn⟩
        obtain ⟨y, hy, rfl⟩ := List.mem_map.mp hmem
        exact (hv.removed _ hn).2 i (List.mem_map_of_mem (hsub y hy))
      · obtain rfl := List.mem_singleton.mp hn
        exact ⟨hnot, .inr ⟨x, hx, rfl⟩⟩
  · refine h.set hv [] rfl hring' (fun n hn _ => hother n (by rwa [← hl])) (by simp) fun n hn => ?_
    rcases List.mem_append.mp hn with hn | hn
    · exact .inl ⟨hn, List.not_mem_nil⟩
    · obtain rfl := List.mem_singleton.mp hn
      exact .inr hself

theorem moveTail_step (hv : Valid w r) (h : Holds w m r) (hij : i ≠ j) (hi : (r.lists i).isSome)
    (hj : (r.lists j).isSome) (hoffset : (w.list i).offset = (w.list j).offset) :
    Valid w (r.after w (.moveTail i j)) ∧
      Holds w (slistMoveTail m (w.list i).head (w.list j).head) (r.after w (.moveTail i j)) := by
  have hnodes : nodes (w.list j) (r.get j) = nodes (w.list i) (r.get j) := by
    refine List.map_congr_left fun x _ => ?_
    rw [listObj2node, listObj2node, hoffset]
  obtain ⟨hringi, hringj, hother⟩ := moveTail_ring (h.ring i hi) (h.ring j hj) fun n => nodes_disjoint hv hij
  have hget : ∀ k, (r.after w (.moveTail i j)).get k =
      if k = j then [] else if k = i then r.get i ++ r.get j else r.get k := by
    intro k
    rw [Seqs.after]
    split_ifs with hkj hki
    · rw [hkj, Seqs.get_set_self]
    · rw [Seqs.get_set_other hkj, hki, Seqs.get_set_self]
    · rw [Seqs.get_set_other hkj, Seqs.get_set_other hki]
  constructor
  · have hv' : Valid w (r.set j []) := hv.set rfl (by simp) (by simp) fun n hn => ⟨by simp, .inl hn⟩
    have hlists : (r.after w (.moveTail i j)).lists = ((r.set j []).set i (r.get i ++ r.get j)).lists :=
      Function.update_comm hij _ _ _
    refine hv'.set hlists (fun x hx => ?_) (fun k hki x hx hx' => ?_) fun n hn => ⟨fun hmem => ?_, .inl hn⟩
    · exact (List.mem_append.mp hx).elim (hv.item i x) (hv.item j x)
    · rcases eq_or_ne k j with rfl | hkj
      · rw [Seqs.get_set_self] at hx'
        cases hx'
      · rw [Seqs.get_set_other hkj] at hx'
        rcases List.mem_append.mp hx with hx | hx
        · exact hv.disjoint i k hki.symm hx hx'
        · exact hv.disjoint j k hkj.symm hx hx'
    · rw [nodes, List.map_append] at hmem
      rcases List.mem_append.mp hmem with hmem | hmem
      · exact (hv.removed n hn).2 i hmem
      · exact (hv.removed n hn).2 j (hnodes ▸ hmem)
  · refine ⟨fun k hk => ?_, fun n hn => ?_⟩
    · rw [hget]
      split_ifs with hkj hki
      · rw [hkj]
        exact hringj
      · rw [hki, nodes, List.map_append, ← nodes, ← nodes, ← hnodes]
        exact hringi
      · rw [Seqs.after, Seqs.isSome_set, or_iff_right hkj, Seqs.isSome_set, or_iff_right hki] at hk
        exact h.congr hk fun n hn => hother n (nodes_disjoint hv hki hn) (nodes_disjoint hv hkj hn)
    · rw [hother n (removed_not_mem hv hn) (removed_not_mem hv hn)]
      exact h.removed n hn

end Steps

end Update

/-! ## Loops -/

section Loops

variable {list : LinkedList} {step : Mem → LinkedList → UInt64 → UInt64} {pre post : List UInt64}

theorem visit_spec (hnull : step m list null = l.headD null)
    (hitem : ∀ pre x post, l = pre ++ x :: post → step m list x = post.headD null) (hne : ∀ x ∈ l, x ≠ null) :
    visit step m list = pure l := by
  have hloop : ∀ rest visited, l = visited ++ rest →
      loop (fun p : UInt64 × List UInt64 => if p.1 = null then pure (.inr p.2)
        else pure (.inl (step m list p.1, p.2 ++ [p.1]))) (rest.headD null, visited) = (pure l : Comp _) := by
    intro rest
    induction rest with
    | nil =>
      intro visited hl
      rw [List.append_nil] at hl
      rw [hl]
      exact loop_done (if_pos rfl)
    | cons x rest ih =>
      intro visited hl
      have hx : x ≠ null := hne x (hl ▸ List.mem_append_right _ List.mem_cons_self)
      refine (@loop_next _ _ _ _ (step m list x, visited ++ [x]) (if_neg hx)).trans ?_
      rw [hitem visited x rest hl]
      exact ih (visited ++ [x]) (by rw [hl, List.append_assoc, List.singleton_append])
  rw [visit, hnull]
  exact hloop l [] rfl

/-- `P m l` says that the items `l` are still on the list. -/
theorem visitSafe_spec {body : Mem → UInt64 → Mem} (P : Mem → List UInt64 → Prop)
    (hnull : ∀ m l, P m l → step m list null = l.headD null)
    (hitem : ∀ m x l, P m (x :: l) → step m list x = l.headD null)
    (hne : ∀ m l, P m l → ∀ x ∈ l, x ≠ null) (hbody : ∀ m x l, P m (x :: l) → P (body m x) l) (h : P m l) :
    ∃ m', visitSafe step m list body = pure (l, m') ∧ P m' [] := by
  have hnext : ∀ m l, P m l → step m list (l.headD null) = l.tail.headD null := by
    intro m l hl
    cases l with
    | nil => exact hnull m [] hl
    | cons x l => exact hitem m x l hl
  have hloop : ∀ rest visited m, P m rest → ∃ m',
      loop (fun p : UInt64 × UInt64 × Mem × List UInt64 => if p.1 = null then pure (.inr (p.2.2.2, p.2.2.1))
        else pure (.inl (p.2.1, step (body p.2.2.1 p.1) list p.2.1, body p.2.2.1 p.1, p.2.2.2 ++ [p.1])))
        (rest.headD null, rest.tail.headD null, m, visited) = (pure (visited ++ rest, m') : Comp _) ∧ P m' [] := by
    intro rest
    induction rest with
    | nil =>
      intro visited m hm
      refine ⟨m, ?_, hm⟩
      rw [List.append_nil]
      exact loop_done (if_pos rfl)
    | cons x rest ih =>
      intro visited m hm
      obtain ⟨m', hrun, hm'⟩ := ih (visited ++ [x]) (body m x) (hbody m x rest hm)
      refine ⟨m', ?_, hm'⟩
      refine (@loop_next _ _ _ _ (rest.headD null, step (body m x) list (rest.headD null), body m x, visited ++ [x])
        (if_neg (hne m _ hm x List.mem_cons_self))).trans ?_
      rw [List.append_assoc, List.singleton_append] at hrun
      rw [← hrun, ← hnext (body m x) rest (hbody m x rest hm)]
  rw [visitSafe, hnull m l h, hnext m l h]
  exact hloop l [] m h

theorem node2obj_obj2node (list : LinkedList) (x : UInt64) : listNode2obj list (listObj2node list x) = x :=
  UInt64.add_sub_cancel x list.offset

theorem next_spec {A B : List UInt64} {a b : UInt64} (h : Ring m list.head (nodes list (pre ++ post)))
    (hc : Cut list.head (nodes list pre) (nodes list post) A a b B) :
    (if (m a).next = list.head then null else listNode2obj list (m a).next) = post.headD null := by
  rw [nodes, List.map_append] at h
  rw [(h.linked hc).1]
  cases post with
  | nil => exact if_pos (List.cons.inj hc.behind).1.symm
  | cons y post =>
    have hb : b = listObj2node list y := (List.cons.inj hc.behind).1.symm
    have hne : listObj2node list y ≠ list.head := by
      intro heq
      refine (List.nodup_cons.mp h.nodup).1 ?_
      exact List.mem_append_right _ (heq ▸ List.mem_cons_self)
    rw [hb, if_neg hne, node2obj_obj2node]
    rfl

theorem listNext_null (h : Ring m list.head (nodes list l)) : listNext m list null = l.headD null := by
  obtain ⟨b, B, hb⟩ := List.exists_cons_of_ne_nil
    (List.append_ne_nil_of_right_ne_nil (nodes list l) (List.cons_ne_nil list.head []))
  rw [listNext, if_pos rfl]
  exact @next_spec m list [] l [] B list.head b h ⟨rfl, hb⟩

theorem listNext_item (h : Ring m list.head (nodes list (pre ++ x :: post))) (hx : x ≠ null) :
    listNext m list x = post.headD null := by
  obtain ⟨b, B, hb⟩ := List.exists_cons_of_ne_nil
    (List.append_ne_nil_of_right_ne_nil (nodes list post) (List.cons_ne_nil list.head []))
  have hc : Cut list.head (nodes list (pre ++ [x])) (nodes list post) (list.head :: nodes list pre)
      (listObj2node list x) b B := ⟨by rw [nodes, List.map_append]; rfl, hb⟩
  rw [listNext, if_neg hx]
  rw [← List.singleton_append, ← List.append_assoc] at h
  exact next_spec h hc

theorem ring_flip (h : Ring m list.head (nodes list l)) : Ring m.flip list.head (nodes list l.reverse) := by
  rw [nodes, List.map_reverse]
  exact h.flip

theorem listForEach_spec (h : Ring m list.head (nodes list l)) (hne : ∀ x ∈ l, x ≠ null) :
    listForEach m list = pure l := by
  refine visit_spec (listNext_null h) (fun pre x post hl => ?_) hne
  exact listNext_item (hl ▸ h) (hne x (hl ▸ List.mem_append_right _ List.mem_cons_self))

theorem listForEachReverse_spec (h : Ring m list.head (nodes list l)) (hne : ∀ x ∈ l, x ≠ null) :
    listForEachReverse m list = pure l.reverse :=
  listForEach_spec (ring_flip h) fun x hx => hne x (List.mem_reverse.mp hx)

end Loops

theorem Holds.refines (hv : Valid w r) (h : Holds w m r) : Refines w m r := by
  have hget : ∀ i l, r.lists i = some l → (r.lists i).isSome ∧ r.get i = l := by
    intro i l hl
    rw [Seqs.get, hl]
    exact ⟨rfl, rfl⟩
  have hring : ∀ i l, r.lists i = some l → Ring m (w.list i).head (nodes (w.list i) l) := by
    intro i l hl
    obtain ⟨hi, rfl⟩ := hget i l hl
    exact h.ring i hi
  have hne : ∀ i l, r.lists i = some l → ∀ x ∈ l, x ≠ null := by
    intro i l hl x hx
    obtain ⟨-, rfl⟩ := hget i l hl
    exact w.item_ne_null x (hv.item i x hx)
  constructor
  · exact fun i l hl n hn => (hring i l hl).links hn
  · exact fun i l hl => listForEach_spec (hring i l hl) (hne i l hl)
  · exact fun i l hl => listForEachReverse_spec (hring i l hl) (hne i l hl)
  · exact fun i l hl => nodup_of_ring (hring i l hl)
  · exact hv.disjoint
  · exact h.removed

/-! ## Runs -/

section Runs

variable [DecidableEq ι] {op : Op ι}

theorem removeHead_step (hv : Valid w r) (h : Holds w m r) (hi : (r.lists i).isSome) :
    (listRemoveHead m (w.list i)).1 = (r.get i).headD null ∧ Valid w (r.after w (.removeHead i)) ∧
      Holds w (listRemoveHead m (w.list i)).2 (r.after w (.removeHead i)) := by
  have hring := h.ring i hi
  rw [listRemoveHead, Seqs.after]
  cases hl : r.get i with
  | nil =>
    rw [hl] at hring
    have hempty : slistIsEmpty m (w.list i).head = true := beq_iff_eq.mpr (hring.next_eq_self.mpr rfl)
    have hsame : r.unlink w i (([] : List UInt64).take 1) ([] : List UInt64).tail = r := by
      rw [Seqs.unlink, List.take_nil, List.map_nil, List.append_nil, List.tail_nil, ← hl, Seqs.set_get hi]
    rw [hsame, hempty, if_pos rfl]
    exact ⟨rfl, hv, h⟩
  | cons x l =>
    rw [hl] at hring
    have hc : Cut (w.list i).head [] (nodes (w.list i) (x :: l)) [] (w.list i).head (listObj2node (w.list i) x)
        (nodes (w.list i) l ++ [(w.list i).head]) := ⟨rfl, rfl⟩
    have hfull : slistIsEmpty m (w.list i).head = false := by
      rw [slistIsEmpty, beq_eq_false_iff_ne]
      exact mt hring.next_eq_self.mp (List.cons_ne_nil _ _)
    rw [hfull, if_neg Bool.false_ne_true, (hring.linked hc).1]
    exact ⟨node2obj_obj2node _ _, unlink_step hv h hi (show r.get i = [] ++ x :: l from hl)⟩

theorem removeTail_step (hv : Valid w r) (h : Holds w m r) (hi : (r.lists i).isSome) :
    (listRemoveTail m (w.list i)).1 = (r.get i).getLastD null ∧ Valid w (r.after w (.removeTail i)) ∧
      Holds w (listRemoveTail m (w.list i)).2 (r.after w (.removeTail i)) := by
  have hring := h.ring i hi
  rw [listRemoveTail, Seqs.after]
  rcases List.eq_nil_or_concat' (r.get i) with hl | ⟨l, x, hl⟩
  · rw [hl] at hring ⊢
    have hempty : slistIsEmpty m (w.list i).head = true := beq_iff_eq.mpr (hring.next_eq_self.mpr rfl)
    have hsame : r.unlink w i ([] : List UInt64).getLast?.toList ([] : List UInt64).dropLast = r := by
      rw [Seqs.unlink, List.getLast?_nil, Option.toList_none, List.map_nil, List.append_nil, List.dropLast_nil, ← hl,
        Seqs.set_get hi]
    rw [hsame, hempty, if_pos rfl]
    exact ⟨rfl, hv, h⟩
  · have hunlink := unlink_step hv h hi hl
    have hfull : slistIsEmpty m (w.list i).head = false := by
      rw [slistIsEmpty, beq_eq_false_iff_ne]
      refine mt hring.next_eq_self.mp ?_
      rw [hl, nodes, List.map_append]
      exact List.append_ne_nil_of_right_ne_nil _ (List.cons_ne_nil _ _)
    have hc : Cut (w.list i).head (nodes (w.list i) (l ++ [x])) [] ((w.list i).head :: nodes (w.list i) l)
        (listObj2node (w.list i) x) (w.list i).head [] := ⟨by rw [nodes, List.map_append]; rfl, rfl⟩
    have hring' : Ring m (w.list i).head (nodes (w.list i) (l ++ [x]) ++ []) := by rwa [List.append_nil, ← hl]
    rw [hfull, if_neg Bool.false_ne_true, (hring'.linked hc).2, hl, List.getLast?_concat, List.dropLast_concat,
      List.getLastD_concat]
    rw [List.append_nil] at hunlink
    exact ⟨node2obj_obj2node _ _, hunlink⟩

/-- Every operation does to the memory what it does to the sequences, unless the code stops. -/
theorem exec_step (hv : Valid w r) (h : Holds w m r) (hop : r.Allowed w op) :
    (Verified w op → ∃ m', exec w m op = pure (r.returned op, m') ∧ Valid w (r.after w op) ∧ Holds w m' (r.after w op)) ∧
      (¬Verified w op → exec w m op = throw .assert) := by
  cases op with
  | create i =>
    constructor
    · intro hsize
      refine ⟨_, ?_, create_step hv h hop⟩
      rw [exec, listCreate, decide_eq_false hsize]
      rfl
    · intro hsize
      rw [exec, listCreate, decide_eq_true (not_not.mp hsize)]
      rfl
  | insert i place new =>
    obtain ⟨hi, hnew, hoff, hplace⟩ := hop
    exact ⟨fun _ => ⟨_, rfl, insert_step hv h hi hnew hoff hplace⟩, fun hnot => absurd trivial hnot⟩
  | remove i item =>
    obtain ⟨hi, hitem⟩ := hop
    obtain ⟨pre, post, hl, hpre⟩ := List.eq_append_cons_of_mem hitem
    refine ⟨fun _ => ⟨_, rfl, ?_⟩, fun hnot => absurd trivial hnot⟩
    have herase : (r.get i).erase item = pre ++ post := by
      rw [hl, List.erase_append_right _ hpre, List.erase_cons_head]
    rw [Seqs.after, herase]
    exact unlink_step hv h hi hl
  | removeHead i =>
    obtain ⟨hret, hstep⟩ := removeHead_step hv h hop
    refine ⟨fun _ => ⟨_, ?_, hstep⟩, fun hnot => absurd trivial hnot⟩
    rw [Seqs.returned, ← hret]
    rfl
  | removeTail i =>
    obtain ⟨hret, hstep⟩ := removeTail_step hv h hop
    refine ⟨fun _ => ⟨_, ?_, hstep⟩, fun hnot => absurd trivial hnot⟩
    rw [Seqs.returned, ← hret]
    rfl
  | moveTail i j =>
    obtain ⟨hij, hi, hj⟩ := hop
    constructor
    · intro ⟨hsize, hoffset⟩
      refine ⟨_, ?_, moveTail_step hv h hij hi hj hoffset⟩
      rw [exec, listMoveTail, hsize, hoffset, beq_self_eq_true, beq_self_eq_true]
      rfl
    · intro hnot
      rw [exec, listMoveTail]
      by_cases hsize : (w.list i).size = (w.list j).size
      · rw [beq_iff_eq.mpr hsize, beq_eq_false_iff_ne.mpr fun hoffset => hnot ⟨hsize, hoffset⟩]
        rfl
      · rw [beq_eq_false_iff_ne.mpr hsize]
        rfl

theorem run_spec (hv : Valid w r) (h : Holds w m r) {ops : List (Op ι)} (hops : Seqs.AllowedAll w r ops) :
    (∃ m', run w m ops = pure (Seqs.returnedAll w r ops, m') ∧ Valid w (r.afterAll w ops) ∧
      Holds w m' (r.afterAll w ops)) ∨
    run w m ops = throw .assert ∧ ∃ op ∈ ops, ¬Verified w op := by
  induction ops generalizing m r with
  | nil => exact .inl ⟨m, rfl, hv, h⟩
  | cons op ops ih =>
    obtain ⟨hop, hops⟩ := hops
    obtain ⟨hgood, hbad⟩ := exec_step hv h hop
    rw [run]
    by_cases hverified : Verified w op
    · obtain ⟨m', hexec, hv', h'⟩ := hgood hverified
      rw [hexec, pure_bind]
      rcases ih hv' h' hops with ⟨m'', hrun, hv'', h''⟩ | ⟨hrun, op', hmem, hnot⟩
      · refine .inl ⟨m'', ?_, hv'', h''⟩
        dsimp only
        rw [hrun]
        rfl
      · refine .inr ⟨?_, op', List.mem_cons_of_mem _ hmem, hnot⟩
        dsimp only
        rw [hrun]
        rfl
    · refine .inr ⟨?_, op, List.mem_cons_self, hverified⟩
      rw [hbad hverified]
      rfl

/-- The items `rest` are still on list `i`, the others have been removed. -/
def Left (w : Program ι) (r : Seqs ι) (i : ι) (m : Mem) (rest : List UInt64) : Prop :=
  ∃ xs, r.get i = xs ++ rest ∧ Valid w (r.unlink w i xs rest) ∧ Holds w m (r.unlink w i xs rest)

section Left

variable {rest : List UInt64}

theorem Left.ring (h : Left w r i m rest) : Ring m (w.list i).head (nodes (w.list i) rest) ∧ ∀ x ∈ rest, x ≠ null := by
  obtain ⟨xs, -, hv, h⟩ := h
  have hget : (r.unlink w i xs rest).get i = rest := Seqs.get_set_self
  have hring := h.ring i (Seqs.isSome_set.mpr (.inl rfl))
  rw [hget] at hring
  exact ⟨hring, fun x hx => w.item_ne_null x (hv.item i x (by rwa [hget]))⟩

theorem Left.remove (h : Left w r i m (x :: rest)) : Left w r i (listRemove m (w.list i) x) rest := by
  obtain ⟨xs, hxs, hv, h⟩ := h
  have hget : (r.unlink w i xs (x :: rest)).get i = [] ++ x :: rest := Seqs.get_set_self
  have hstep := unlink_step hv h (Seqs.isSome_set.mpr (.inl rfl)) hget
  have hsame : (r.unlink w i xs (x :: rest)).unlink w i [x] ([] ++ rest) = r.unlink w i (xs ++ [x]) rest := by
    rw [Seqs.unlink, Seqs.unlink, Seqs.unlink, List.map_append, ← List.append_assoc]
    simp [Seqs.set]
  rw [hsame] at hstep
  exact ⟨xs ++ [x], by rw [hxs, List.append_assoc, List.singleton_append], hstep⟩

theorem left_all (hv : Valid w r) (h : Holds w m r) (hi : (r.lists i).isSome) : Left w r i m (r.get i) := by
  have hsame : r.unlink w i [] (r.get i) = r := by rw [Seqs.unlink, List.map_nil, List.append_nil, Seqs.set_get hi]
  refine ⟨[], rfl, ?_, ?_⟩
  · rwa [hsame]
  · rwa [hsame]

end Left

/-- A loop that removes each item. -/
theorem forEachSafe_spec (hv : Valid w r) (h : Holds w m r) (hi : (r.lists i).isSome) :
    ∃ m', listForEachSafe m (w.list i) (fun m item => listRemove m (w.list i) item) = pure (r.get i, m') ∧
      Valid w (r.unlink w i (r.get i) []) ∧ Holds w m' (r.unlink w i (r.get i) []) := by
  obtain ⟨m', hloop, xs, hxs, hv', h'⟩ := visitSafe_spec (Left w r i) (fun m rest h => listNext_null h.ring.1)
    (fun m x rest h => @listNext_item m x (w.list i) [] rest h.ring.1 (h.ring.2 x List.mem_cons_self))
    (fun m rest h => h.ring.2) (fun m x rest h => h.remove) (left_all hv h hi)
  rw [List.append_nil] at hxs
  rw [← hxs] at hv' h'
  exact ⟨m', hloop, hv', h'⟩

end Runs

/-- In every run, the memory holds the sequences, and so it does after a loop that removes each item. -/
theorem list_runs {ι : Type} [DecidableEq ι] (w : Program ι) (m : Mem) (ops : List (Op ι))
    (hops : Seqs.AllowedAll w .none ops) :
    (∃ m', run w m ops = pure (Seqs.returnedAll w .none ops, m') ∧ Refines w m' (Seqs.none.afterAll w ops) ∧
      ∀ i l, (Seqs.none.afterAll w ops).lists i = some l →
        ∃ m'', listForEachSafe m' (w.list i) (fun m item => listRemove m (w.list i) item) = pure (l, m'') ∧
          Refines w m'' ((Seqs.none.afterAll w ops).unlink w i l [])) ∨
    run w m ops = throw .assert ∧ ∃ op ∈ ops, ¬Verified w op := by
  have hv : Valid w Seqs.none := ⟨by simp [Seqs.get, Seqs.none], by simp [Seqs.get, Seqs.none], by simp [Seqs.none]⟩
  have h : Holds w m Seqs.none := ⟨by simp [Seqs.none], by simp [Seqs.none]⟩
  refine (run_spec hv h hops).imp_left fun ⟨m', hrun, hv', h'⟩ => ⟨m', hrun, h'.refines hv', fun i l hl => ?_⟩
  have hi : ((Seqs.none.afterAll w ops).lists i).isSome := by rw [hl]; rfl
  have hget : (Seqs.none.afterAll w ops).get i = l := by rw [Seqs.get, hl, Option.getD_some]
  obtain ⟨m'', hloop, hv'', h''⟩ := forEachSafe_spec hv' h' hi
  rw [hget] at hloop hv'' h''
  exact ⟨m'', hloop, h''.refines hv''⟩

/-- Two lists, and two objects of 32 bytes with their nodes at the offset 8. -/
def twoLists : Program Bool where
  list i := if i then ⟨8, 32, 1000⟩ else ⟨8, 32, 2000⟩
  Item x := x = 64 ∨ x = 128
  head_inj := by decide
  item_ne_null := by
    rintro x (rfl | rfl)
    · decide
    · decide
  node_inj := by
    rintro (_ | _) (_ | _) x y - - h
    all_goals exact (UInt64.add_left_inj 8).mp h
  node_ne_head := by
    rintro (_ | _) (_ | _) x (rfl | rfl)
    all_goals decide

/-- Both objects are on the first list, all of it is moved behind the second one, and its first item is removed. -/
theorem list_runs_two : ∃ m', run twoLists (fun _ => ⟨0, 0⟩)
      [.create true, .create false, .insert true .tail 64, .insert true (.before 64) 128, .moveTail false true,
        .removeHead false] = pure ([none, none, none, none, none, some 128], m') ∧
      listForEach m' (twoLists.list false) = pure [64] ∧ listForEach m' (twoLists.list true) = pure [] := by
  have hops : Seqs.AllowedAll twoLists .none [.create true, .create false, .insert true .tail 64,
      .insert true (.before 64) 128, .moveTail false true, .removeHead false] := by
    have hfirst : ∀ j, (64 : UInt64) ∉ (((Seqs.none.set true []).set false []).get j) := by decide
    have hsecond : ∀ j, (128 : UInt64) ∉ ((((Seqs.none.set true []).set false []).set true [64]).get j) := by decide
    exact ⟨rfl, rfl, ⟨rfl, .inl rfl, hfirst, trivial⟩, ⟨rfl, .inr rfl, hsecond, List.mem_singleton_self _⟩,
      ⟨Bool.false_ne_true, rfl, rfl⟩, rfl, trivial⟩
  rcases list_runs twoLists (fun _ => ⟨0, 0⟩) _ hops with ⟨m', hrun, hm', -⟩ | ⟨-, op, hop, hnot⟩
  · exact ⟨m', hrun, hm'.forward false [64] rfl, hm'.forward true [] rfl⟩
  · refine absurd ?_ hnot
    simp only [List.mem_cons, List.not_mem_nil, or_false] at hop
    rcases hop with rfl | rfl | rfl | rfl | rfl | rfl
    all_goals simp [Verified, twoLists]

end Libjeffpc.Lists
