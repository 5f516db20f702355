import Mathlib.Data.List.Chain
import Mathlib.Data.List.Nodup

/-!
# Doubly linked lists

Doubly linked lists in arrays: `prev` and `next` give, for every element, its
neighbours, or the mark `nil` at the ends. That a list is linked is a property
of the pairs of neighbours of the list between two marks (`Link`).

* `Linked.push`: putting an element in front;
* `Linked.unlink`, `Linked.unlink_other`: taking an element out of its list, and
  what this does to the other lists: nothing;
* `Linked.alone_iff`: the neighbours tell whether the element is alone.

Elements that fall into classes, with one list for each class, are `Classed`;
the operations on one list then are operations on all of them
(`Classed.push`, `Classed.unlink`, `Classed.alone_iff`).
-/

namespace DoublyLinked

variable {α : Type*} {nil : α} {prev next prev' next' : α → α}

/-- Neighbours `a` and `b` point to each other; the mark points nowhere. -/
def Link (nil : α) (prev next : α → α) (a b : α) : Prop :=
  (a ≠ nil → next a = b) ∧ (b ≠ nil → prev b = a)

/-- The list `l` is linked, between two marks. -/
def Linked (nil : α) (prev next : α → α) (l : List α) : Prop :=
  (nil :: (l ++ [nil])).IsChain (Link nil prev next)

theorem linked_nil : Linked nil prev next [] := by
  simp [Linked, Link]

theorem head?_append_nil (b : List α) : (b ++ [nil]).head? = some (b.headD nil) := by
  cases b <;> rfl

/-- A list is linked around an element: the parts before and behind it are, and
    the pointers of the element and of its neighbours agree. -/
theorem linked_append {a b : List α} {e : α} (he : e ≠ nil) :
    Linked nil prev next (a ++ e :: b) ↔
      (nil :: a).IsChain (Link nil prev next) ∧ (b ++ [nil]).IsChain (Link nil prev next) ∧
        prev e = a.getLast?.getD nil ∧ next e = b.headD nil ∧
        (prev e ≠ nil → next (prev e) = e) ∧ (next e ≠ nil → prev (next e) = e) := by
  have hs : nil :: (a ++ e :: b ++ [nil]) = (nil :: a) ++ ([e] ++ (b ++ [nil])) := by simp
  rw [Linked, hs, List.isChain_append, List.isChain_append, head?_append_nil,
    show (nil :: a).getLast? = _ from List.getLast?_cons]
  simp only [List.IsChain.singleton, List.getLast?_singleton, List.singleton_append,
    List.head?_cons, Option.mem_def, Option.some.injEq, forall_eq', Link, ne_eq,
    he, not_false_eq_true, forall_const, true_and]
  constructor
  · rintro ⟨ha, ⟨hb, hn, hpn⟩, hnp, hp⟩
    exact ⟨ha, hb, hp, hn, hp ▸ hnp, hn ▸ hpn⟩
  · rintro ⟨ha, hb, hp, hn, hnp, hpn⟩
    exact ⟨ha, ⟨hb, hn, hn ▸ hpn⟩, hp ▸ hnp, hp⟩

/-- An element without neighbours is alone. -/
theorem Linked.alone_iff {l : List α} (h : Linked nil prev next l) (hnil : nil ∉ l) {e : α}
    (he : e ∈ l) (hl : l.Nodup) : prev e = nil ∧ next e = nil ↔ l = [e] := by
  have hene : e ≠ nil := fun h => hnil (h ▸ he)
  constructor
  · intro ⟨hp, hn⟩
    obtain ⟨a, b, rfl⟩ := List.append_of_mem he
    obtain ⟨-, -, hp', hn', -⟩ := (linked_append hene).1 h
    obtain rfl : a = [] := by
      refine List.eq_nil_iff_forall_not_mem.2 fun x hx => hnil ?_
      rw [← hp, hp', List.getLast?_eq_some_getLast (List.ne_nil_of_mem hx)]
      exact List.mem_append_left _ (List.getLast_mem _)
    cases b with
    | nil => rfl
    | cons y b => exact absurd (hn.symm.trans hn') fun h => hnil (h ▸ by simp)
  · rintro rfl
    obtain ⟨-, -, hp, hn, -⟩ := (linked_append (a := []) hene).1 h
    exact ⟨hp, hn⟩

variable [DecidableEq α]

/-- Pointing the neighbours of `e` to each other changes no chain without `e`. -/
theorem isChain_unlink {s : List α} (h : s.IsChain (Link nil prev next)) {e : α} (he : e ∉ s)
    (hp : prev e ≠ nil → next (prev e) = e) (hn : next e ≠ nil → prev (next e) = e)
    (hn' : ∀ u ≠ nil, next' u = if u = prev e then next e else next u)
    (hp' : ∀ u ≠ nil, prev' u = if u = next e then prev e else prev u) :
    s.IsChain (Link nil prev' next') := by
  refine List.IsChain.imp_of_mem_imp (fun a b ha hb hab => ⟨fun hane => ?_, fun hbne => ?_⟩) h
  · rw [hn' a hane, hab.1 hane, if_neg]
    rintro rfl
    exact he (hp hane ▸ hab.1 hane ▸ hb)
  · rw [hp' b hbne, hab.2 hbne, if_neg]
    rintro rfl
    exact he (hn hbne ▸ hab.2 hbne ▸ ha)

/-- Taking an element out of a list: its neighbours point to each other. -/
theorem Linked.unlink {l : List α} (h : Linked nil prev next l) (hl : l.Nodup) (hnil : nil ∉ l)
    {e : α} (he : e ∈ l) (hn' : ∀ u ≠ nil, next' u = if u = prev e then next e else next u)
    (hp' : ∀ u ≠ nil, prev' u = if u = next e then prev e else prev u) :
    Linked nil prev' next' (l.erase e) := by
  have hene : e ≠ nil := fun h => hnil (h ▸ he)
  obtain ⟨a, b, rfl⟩ := List.append_of_mem he
  obtain ⟨hea, heb⟩ : e ∉ a ∧ e ∉ b := by
    rw [List.nodup_middle, List.nodup_cons, List.mem_append] at hl
    exact not_or.1 hl.1
  obtain ⟨ha, hb, hp, hn, hnp, hpn⟩ := (linked_append hene).1 h
  rw [List.erase_append_right _ hea, List.erase_cons_head, Linked, List.append_assoc,
    ← List.cons_append, List.isChain_append]
  refine ⟨isChain_unlink ha (by simp [hene, hea]) hnp hpn hn' hp',
    isChain_unlink hb (by simp [hene, heb]) hnp hpn hn' hp', ?_⟩
  rw [List.getLast?_cons, head?_append_nil, ← hp, ← hn]
  rintro _ ⟨⟩ _ ⟨⟩
  exact ⟨fun hx => by rw [hn' _ hx, if_pos rfl], fun hy => by rw [hp' _ hy, if_pos rfl]⟩

/-- The neighbours of an element are other elements of the list. -/
theorem Linked.neighbours_mem {l : List α} (h : Linked nil prev next l) (hl : l.Nodup)
    (hnil : nil ∉ l) {e : α} (he : e ∈ l) :
    (prev e ≠ nil → prev e ∈ l.erase e) ∧ (next e ≠ nil → next e ∈ l.erase e) := by
  have hene : e ≠ nil := fun h => hnil (h ▸ he)
  obtain ⟨a, b, rfl⟩ := List.append_of_mem he
  have hea : e ∉ a := by
    rw [List.nodup_middle, List.nodup_cons, List.mem_append] at hl
    exact (not_or.1 hl.1).1
  obtain ⟨-, -, hp, hn, -⟩ := (linked_append hene).1 h
  rw [List.erase_append_right _ hea, List.erase_cons_head, List.mem_append, List.mem_append, hp, hn]
  constructor
  · intro hne
    cases ha : a.getLast? with
    | none => simp [ha] at hne
    | some x => exact .inl (List.mem_of_getLast? ha)
  · intro hne
    cases b with
    | nil => exact absurd rfl hne
    | cons y b => exact .inr List.mem_cons_self

/-- Taking an element out of a list changes no other list. -/
theorem Linked.unlink_other {l l' : List α} (h : Linked nil prev next l) (hnil : nil ∉ l) {e : α}
    (he : e ∈ l) (hn' : ∀ u ≠ nil, next' u = if u = prev e then next e else next u)
    (hp' : ∀ u ≠ nil, prev' u = if u = next e then prev e else prev u)
    (h' : Linked nil prev next l') (he' : e ∉ l') : Linked nil prev' next' l' := by
  have hene : e ≠ nil := fun h => hnil (h ▸ he)
  obtain ⟨a, b, rfl⟩ := List.append_of_mem he
  obtain ⟨-, -, -, -, hnp, hpn⟩ := (linked_append hene).1 h
  exact isChain_unlink h' (by simp [hene, he']) hnp hpn hn' hp'

/-- Putting `i` in front of `h` changes no chain without `i` that has nothing
    before `h`. -/
theorem isChain_push {s : List α} (hs : s.IsChain (Link nil prev next)) {i h : α} (hi : i ∉ s)
    (hh : h ∉ s.tail ∨ h = nil) (hn' : ∀ u ≠ nil, next' u = if u = i then h else next u)
    (hp' : ∀ u ≠ nil, prev' u = if u = i then nil else if u = h then i else prev u) :
    s.IsChain (Link nil prev' next') := by
  refine List.IsChain.imp_of_mem_tail_imp
    (fun a b ha hb hab => ⟨fun hane => ?_, fun hbne => ?_⟩) hs
  · rw [hn' a hane, hab.1 hane, if_neg]
    rintro rfl
    exact hi ha
  · rw [hp' b hbne, hab.2 hbne, if_neg, if_neg]
    · rintro rfl
      exact hh.elim (fun h => h hb) hbne
    · rintro rfl
      exact hi (List.mem_of_mem_tail hb)

/-- Putting an element in front of a list. -/
theorem Linked.push {l : List α} (h : Linked nil prev next l) (hl : l.Nodup) (hnil : nil ∉ l)
    {i : α} (hi : i ∉ l) (hine : i ≠ nil)
    (hn' : ∀ u ≠ nil, next' u = if u = i then l.headD nil else next u)
    (hp' : ∀ u ≠ nil, prev' u =
      if u = i then nil else if u = l.headD nil then i else prev u) :
    Linked nil prev' next' (i :: l) := by
  have hfront : Link nil prev' next' nil i :=
    ⟨fun h => absurd rfl h, fun _ => by rw [hp' i hine, if_pos rfl]⟩
  refine List.IsChain.cons_cons hfront ?_
  cases l with
  | nil => exact List.isChain_pair.2 ⟨fun _ => by rw [hn' i hine, if_pos rfl]; rfl, (absurd rfl ·)⟩
  | cons x l =>
    have hxi : x ≠ i := fun h => hi (h ▸ List.mem_cons_self)
    refine List.IsChain.cons_cons ⟨fun _ => by rw [hn' i hine, if_pos rfl]; rfl,
      fun hx => by rw [hp' x hx, if_neg hxi]; exact if_pos rfl⟩ ?_
    refine isChain_push (List.isChain_cons_cons.1 h).2 ?_ ?_ hn' hp'
    · simpa [hine] using hi
    · have hx : x ≠ nil := fun h => hnil (h ▸ List.mem_cons_self)
      exact .inl (by simpa [hx] using (List.nodup_cons.1 hl).1)

/-- Putting an element in front of a list changes no other list. -/
theorem Linked.push_other {l l' : List α} (h' : Linked nil prev next l') {i : α} (hi : i ∉ l')
    (hine : i ≠ nil) (hl : l.Disjoint l')
    (hn' : ∀ u ≠ nil, next' u = if u = i then l.headD nil else next u)
    (hp' : ∀ u ≠ nil, prev' u =
      if u = i then nil else if u = l.headD nil then i else prev u) :
    Linked nil prev' next' l' := by
  refine isChain_push h' (by simp [hine, hi]) ?_ hn' hp'
  cases l with
  | nil => exact .inr rfl
  | cons x l =>
    by_cases hx : x = nil
    · exact .inr hx
    · exact .inl (by simpa [hx] using hl List.mem_cons_self)

/-! ## Lists of classes -/

variable {κ : Type*} [DecidableEq κ] {cls : α → κ}

/-- The elements `L`, with a linked list of each class. -/
def Classed (nil : α) (prev next : α → α) (cls : α → κ) (L : List α) : Prop :=
  ∀ s, Linked nil prev next (L.filter (cls · = s))

/-- Putting a new element in front of the list of its class. -/
theorem Classed.push {L : List α} (h : Classed nil prev next cls L) (hL : L.Nodup) (hnil : nil ∉ L)
    {i : α} (hi : i ∉ L) (hine : i ≠ nil)
    (hn' : ∀ u ≠ nil, next' u = if u = i then (L.filter (cls · = cls i)).headD nil else next u)
    (hp' : ∀ u ≠ nil, prev' u = if u = i then nil
      else if u = (L.filter (cls · = cls i)).headD nil then i else prev u) :
    Classed nil prev' next' cls (i :: L) := by
  intro s
  have hmem : ∀ {s x}, x ∈ L.filter (cls · = s) → x ∈ L := List.mem_of_mem_filter
  by_cases hs : cls i = s
  · subst hs
    rw [List.filter_cons_of_pos (by simp)]
    exact (h _).push (hL.filter _) (hnil ∘ hmem) (hi ∘ hmem) hine hn' hp'
  · rw [List.filter_cons_of_neg (by simpa using hs)]
    refine (h s).push_other (hi ∘ hmem) hine (fun x hx hx' => hs ?_) hn' hp'
    simp only [List.mem_filter, decide_eq_true_eq] at hx hx'
    rw [← hx.2, hx'.2]

/-- Taking an element out of the list of its class. -/
theorem Classed.unlink {L : List α} (h : Classed nil prev next cls L) (hL : L.Nodup)
    (hnil : nil ∉ L) {e : α} (he : e ∈ L)
    (hn' : ∀ u ≠ nil, next' u = if u = prev e then next e else next u)
    (hp' : ∀ u ≠ nil, prev' u = if u = next e then prev e else prev u) :
    Classed nil prev' next' cls (L.erase e) := by
  intro s
  have hmem : ∀ {s x}, x ∈ L.filter (cls · = s) → x ∈ L := List.mem_of_mem_filter
  have he' : e ∈ L.filter (cls · = cls e) := by simp [he]
  have herase : (L.erase e).filter (cls · = s) = (L.filter (cls · = s)).erase e := by
    rw [hL.erase_eq_filter, (hL.filter _).erase_eq_filter, List.filter_filter, List.filter_filter]
    exact List.filter_congr fun x _ => Bool.and_comm _ _
  rw [herase]
  by_cases hs : cls e = s
  · subst hs
    exact (h _).unlink (hL.filter _) (hnil ∘ hmem) he' hn' hp'
  · have hes : e ∉ L.filter (cls · = s) := by simp [hs]
    rw [List.erase_of_not_mem hes]
    exact (h (cls e)).unlink_other (hnil ∘ hmem) he' hn' hp' (h s) hes

/-- The neighbours of an element are other elements. -/
theorem Classed.neighbours_mem {L : List α} (h : Classed nil prev next cls L) (hL : L.Nodup)
    (hnil : nil ∉ L) {e : α} (he : e ∈ L) :
    (prev e ≠ nil → prev e ∈ L.erase e) ∧ (next e ≠ nil → next e ∈ L.erase e) := by
  have he' : e ∈ L.filter (cls · = cls e) := by simp [he]
  have hsub := (List.filter_sublist (p := (cls · = cls e)) (l := L)).erase e |>.subset
  exact ((h (cls e)).neighbours_mem (hL.filter _) (hnil ∘ List.mem_of_mem_filter) he').imp
    (fun h hne => hsub (h hne)) fun h hne => hsub (h hne)

/-- The neighbours of an element are of its class. -/
theorem Classed.neighbours_cls {L : List α} (h : Classed nil prev next cls L) (hL : L.Nodup)
    (hnil : nil ∉ L) {e : α} (he : e ∈ L) :
    (prev e ≠ nil → cls (prev e) = cls e) ∧ (next e ≠ nil → cls (next e) = cls e) := by
  have he' : e ∈ L.filter (cls · = cls e) := by simp [he]
  have hcls : ∀ {x}, x ∈ (L.filter (cls · = cls e)).erase e → cls x = cls e := fun hx =>
    of_decide_eq_true (List.mem_filter.1 (List.mem_of_mem_erase hx)).2
  exact ((h (cls e)).neighbours_mem (hL.filter _) (hnil ∘ List.mem_of_mem_filter) he').imp
    (hcls ∘ ·) (hcls ∘ ·)

omit [DecidableEq α] in
/-- An element without neighbours is the only one of its class. -/
theorem Classed.alone_iff {L : List α} (h : Classed nil prev next cls L) (hL : L.Nodup)
    (hnil : nil ∉ L) {e : α} (he : e ∈ L) :
    prev e = nil ∧ next e = nil ↔ ∀ x ∈ L, cls x = cls e → x = e := by
  have he' : e ∈ L.filter (cls · = cls e) := by simp [he]
  rw [(h (cls e)).alone_iff (hnil ∘ List.mem_of_mem_filter) he' (hL.filter _)]
  constructor
  · intro hl x hx hcls
    have : x ∈ L.filter (cls · = cls e) := by simp [hx, hcls]
    rwa [hl, List.mem_singleton] at this
  · intro hx
    refine List.perm_singleton.1 ((List.perm_ext_iff_of_nodup (hL.filter _)
      (List.nodup_singleton e)).2 fun x => ?_)
    simp only [List.mem_filter, decide_eq_true_eq, List.mem_singleton]
    exact ⟨fun h => hx x h.1 h.2, by rintro rfl; exact ⟨he, rfl⟩⟩

end DoublyLinked
