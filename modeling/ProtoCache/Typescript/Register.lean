import ProtoCache.Typescript.Cache

/-!
# What is registered

A call of `register` gives handles to nodes and commits their plans. If it returns, every
node that got a handle has had its plan committed, with the handles of its children; if it
throws, the nodes that got a handle are those that the call has touched.

* `register_spec`: the above, for any answers of the decoder;
* `register_returns`: if the decoder has room for the nodes and accepts their plans, a call
  returns, as every call in it has one more node registered;
* `register_agree`: what is committed depends on the nodes that are reached only, but for
  the numbers that the handles have.
-/

namespace ProtoCache.Typescript

open Exceptional

section

variable {α : Type} {G : Graph α}

/-- The plan of a node, once its children have handles. -/
def planOf (handle : Identity α → Option ℕ) : SchemaNode α → Plan
  | .message fields =>
    .message (fields.map fun field => ⟨field.id, field.kind, field.child.bind handle⟩)
  | .array valueKind child => .array valueKind (child.bind handle)
  | .map keyKind valueKind child => .map keyKind valueKind (child.bind handle)

/-- The plan of a node depends on its children only. -/
theorem planOf_congr {handle handle' : Identity α → Option ℕ} {node : SchemaNode α}
    (h : ∀ y, node.Refers y → handle' y = handle y) : planOf handle' node = planOf handle node := by
  have hbind : ∀ child : Option (Identity α), (∀ y, child = some y → handle' y = handle y) →
      child.bind handle' = child.bind handle := by
    intro child hchild
    cases child with
    | none => rfl
    | some y => exact hchild y rfl
  cases node with
  | message fields =>
    simp only [planOf, Plan.message.injEq]
    refine List.map_congr_left fun field hfield => ?_
    rw [hbind field.child fun y hy => h y ⟨field, hfield, hy⟩]
  | array valueKind child =>
    simp only [planOf]
    rw [hbind child h]
  | map keyKind valueKind child =>
    simp only [planOf]
    rw [hbind child h]

/-! ## Registries that grow -/

/-- Handles are those that the decoder has given, and no two nodes have the same. -/
structure Registry.Valid (g : Registry α) : Prop where
  unique : ∀ x y handle, g.wasmHandle x = some handle → g.wasmHandle y = some handle → x = y
  given : ∀ x handle, g.wasmHandle x = some handle → handle ≤ g.count

/-- Handles are kept, and new ones are those of nodes that the call touches. -/
structure Grows (g g' : Registry α) : Prop where
  valid : g.Valid → g'.Valid
  kept : ∀ x handle, g.wasmHandle x = some handle → g'.wasmHandle x = some handle
  count_le : g.count ≤ g'.count
  fresh : ∀ x handle, g.wasmHandle x = none → g'.wasmHandle x = some handle →
    g.count < handle ∧ x ∈ g'.touched
  touched : ∀ x ∈ g'.touched, x ∈ g.touched ∨ g.wasmHandle x = none
  still : ∀ x ∈ g.touched, x ∈ g'.touched

theorem Grows.refl (g : Registry α) : Grows g g :=
  ⟨id, fun _ _ h => h, le_rfl, fun x handle hnone hsome => (by rw [hnone] at hsome; cases hsome),
    fun _ h => .inl h, fun _ h => h⟩

theorem Grows.none_of {g g' : Registry α} (h : Grows g g') {x : Identity α}
    (hx : g'.wasmHandle x = none) :
    g.wasmHandle x = none := by
  rcases hg : g.wasmHandle x with _ | handle
  · rfl
  · rw [h.kept x handle hg] at hx
    cases hx

theorem Grows.trans {g g' g'' : Registry α} (h : Grows g g') (h' : Grows g' g'') : Grows g g'' where
  valid hvalid := h'.valid (h.valid hvalid)
  kept x handle hg := h'.kept x handle (h.kept x handle hg)
  count_le := h.count_le.trans h'.count_le
  fresh x handle hnone hsome := by
    rcases hg' : g'.wasmHandle x with _ | handle'
    · obtain ⟨hlt, hmem⟩ := h'.fresh x handle hg' hsome
      exact ⟨h.count_le.trans_lt hlt, hmem⟩
    · have heq := h'.kept x handle' hg'
      rw [hsome] at heq
      cases heq
      obtain ⟨hlt, hmem⟩ := h.fresh x handle hnone hg'
      exact ⟨hlt, h'.still x hmem⟩
  touched x hx := by
    rcases h'.touched x hx with hmem | hnone
    · exact h.touched x hmem
    · exact .inr (h.none_of hnone)
  still x hx := h'.still x (h.still x hx)

/-- Handles are kept, and the plans that have been committed are those of the nodes with new
    ones. -/
structure Commits (nodes : Nodes α) (g g' : Registry α) (plans : List (ℕ × Plan)) : Prop where
  commits : g'.commits = g.commits ++ plans
  all : ∀ x handle, g.wasmHandle x = none → g'.wasmHandle x = some handle → ∃ node,
    nodes x = some node ∧
    (handle, planOf g'.wasmHandle node) ∈ plans ∧ ∀ y, node.Refers y → g'.wasmHandle y ≠ none
  only : ∀ entry ∈ plans, ∃ x node, g.wasmHandle x = none ∧ g'.wasmHandle x = some entry.1 ∧
    nodes x = some node ∧ entry.2 = planOf g'.wasmHandle node ∧ ∀ y,
      node.Refers y → g'.wasmHandle y ≠ none

theorem Commits.refl (nodes : Nodes α) (g : Registry α) : Commits nodes g g [] :=
  ⟨(List.append_nil _).symm, fun x handle hnone hsome => (by rw [hnone] at hsome; cases hsome),
    fun _ h => absurd h List.not_mem_nil⟩

/-- The children keep their handles, so that the plan is the same. -/
theorem Grows.planOf_eq {g g' : Registry α} (h : Grows g g') {node : SchemaNode α}
    (hrefers : ∀ y, node.Refers y → g.wasmHandle y ≠ none) :
    planOf g'.wasmHandle node = planOf g.wasmHandle node := by
  refine planOf_congr fun y hy => ?_
  obtain ⟨handle, hhandle⟩ := Option.ne_none_iff_exists'.1 (hrefers y hy)
  rw [hhandle, h.kept y handle hhandle]

theorem Grows.mem {g g' : Registry α} (h : Grows g g') {x : Identity α}
    (hx : g.wasmHandle x ≠ none) :
    g'.wasmHandle x ≠ none := fun hnone => hx (h.none_of hnone)

theorem Commits.trans {nodes : Nodes α} {g g' g'' : Registry α} {plans plans' : List (ℕ × Plan)}
    (h : Commits nodes g g' plans) (h' : Commits nodes g' g'' plans') (hgrows : Grows g g')
    (hgrows' : Grows g' g'') :
    Commits nodes g g'' (plans ++ plans') where
  commits := by rw [h'.commits, h.commits, List.append_assoc]
  all x handle hnone hsome := by
    rcases hg' : g'.wasmHandle x with _ | handle'
    · obtain ⟨node, hnode, hmem, hrefers⟩ := h'.all x handle hg' hsome
      exact ⟨node, hnode, List.mem_append_right _ hmem, hrefers⟩
    · have heq := hgrows'.kept x handle' hg'
      rw [hsome] at heq
      cases heq
      obtain ⟨node, hnode, hmem, hrefers⟩ := h.all x handle hnone hg'
      refine ⟨node, hnode, List.mem_append_left _ ?_, fun y hy => hgrows'.mem (hrefers y hy)⟩
      rwa [hgrows'.planOf_eq hrefers]
  only entry hentry := by
    rcases List.mem_append.1 hentry with hentry | hentry
    · obtain ⟨x, node, hnone, hsome, hnode, hplan, hrefers⟩ := h.only entry hentry
      refine ⟨x, node, hnone, hgrows'.kept x _ hsome, hnode, ?_,
        fun y hy => hgrows'.mem (hrefers y hy)⟩
      rw [hplan, hgrows'.planOf_eq hrefers]
    · obtain ⟨x, node, hnone, hsome, hnode, hplan, hrefers⟩ := h'.only entry hentry
      exact ⟨x, node, hgrows.none_of hnone, hsome, hnode, hplan, hrefers⟩

/-! ## Registering the nodes -/

variable {nodes : Nodes α}

/-- What a run that returns has done, and what is known of it: from `g` to `g'`. -/
structure Registers (nodes : Nodes α) (g g' : Registry α) : Prop where
  grows : Grows g g'
  commits : ∃ plans, Commits nodes g g' plans

theorem Registers.refl (g : Registry α) : Registers nodes g g := ⟨.refl g, [], .refl nodes g⟩

theorem Registers.trans {g g' g'' : Registry α} (h : Registers nodes g g')
    (h' : Registers nodes g' g'') :
    Registers nodes g g'' := by
  obtain ⟨plans, hplans⟩ := h.commits
  obtain ⟨plans', hplans'⟩ := h'.commits
  exact ⟨h.grows.trans h'.grows, _, hplans.trans hplans' h.grows h'.grows⟩

variable {out : Outside G} {next : Identity α → Run (Registry α) (Thrown α) ℕ}

/-- What is known of the call for a node. -/
def Gives (nodes : Nodes α) (next : Identity α → Run (Registry α) (Thrown α) ℕ) : Prop :=
  ∀ x g, Triple (fun g' => g' = g) (next x)
    (fun handle g' => g'.wasmHandle x = some handle ∧ Registers nodes g g')
    fun _ g' => Grows g g'

theorem registerChild_spec (hnext : Gives nodes next) (child : Option (Identity α))
    (g : Registry α) :
    Triple (fun g' => g' = g) (registerChild next child)
      (fun r g' => r = child.bind g'.wasmHandle ∧ (∀ y, child = some y → g'.wasmHandle y ≠ none) ∧
        Registers nodes g g')
      fun _ g' => Grows g g' := by
  cases child with
  | none =>
    refine Triple.pure ?_
    rintro _ rfl
    exact ⟨rfl, fun y hy => (by cases hy), .refl _⟩
  | some y =>
    refine (hnext y g).bind fun handle => Triple.pure ?_
    rintro g' ⟨hhandle, hregisters⟩
    refine ⟨hhandle.symm, fun z hz => ?_, hregisters⟩
    cases hz
    rw [hhandle]
    exact Option.some_ne_none _

/-- The fields of a message, by induction on them. -/
theorem registerFields_spec (hnext : Gives nodes next) (fields : List (FieldNode α))
    (g : Registry α) :
    Triple (fun g' => g' = g) (registerFields next fields)
      (fun r g' =>
        r = fields.map (fun field => ⟨field.id, field.kind, field.child.bind g'.wasmHandle⟩) ∧
        (∀ field ∈ fields, ∀ y, field.child = some y → g'.wasmHandle y ≠ none) ∧
        Registers nodes g g')
      fun _ g' => Grows g g' := by
  induction fields generalizing g with
  | nil =>
    refine Triple.pure ?_
    rintro _ rfl
    exact ⟨rfl, fun f hf => absurd hf List.not_mem_nil, .refl _⟩
  | cons field fields ih =>
    refine (registerChild_spec hnext field.child g).bind fun child => ?_
    rintro g' ⟨rfl, hmem, hregisters⟩
    refine (((ih g').conseq (fun _ h => h) (fun _ _ h => h) ?_).bind fun rest => Triple.pure ?_) g'
      rfl
    · exact fun _ g'' hgrows => hregisters.grows.trans hgrows
    rintro g'' ⟨rfl, hmem', hregisters'⟩
    have hchild : field.child.bind g''.wasmHandle = field.child.bind g'.wasmHandle := by
      cases hc : field.child with
      | none => rfl
      | some y =>
        obtain ⟨handle, hhandle⟩ := Option.ne_none_iff_exists'.1 (hmem y hc)
        rw [Option.bind_some, Option.bind_some, hhandle, hregisters'.grows.kept y handle hhandle]
    refine ⟨?_, fun f hf y hy => ?_, hregisters.trans hregisters'⟩
    · rw [List.map_cons, hchild]
    · rcases List.mem_cons.1 hf with rfl | hf
      · exact hregisters'.grows.mem (hmem y hy)
      · exact hmem' f hf y hy

theorem registerNode_spec (hnext : Gives nodes next) (node : SchemaNode α) (g : Registry α) :
    Triple (fun g' => g' = g) (registerNode next node)
      (fun plan g' => plan = planOf g'.wasmHandle node ∧
        (∀ y, node.Refers y → g'.wasmHandle y ≠ none) ∧
        Registers nodes g g')
      fun _ g' => Grows g g' := by
  cases node with
  | message fields =>
    refine (registerFields_spec hnext fields g).bind fun r => Triple.pure ?_
    rintro g' ⟨rfl, hmem, hregisters⟩
    refine ⟨rfl, ?_, hregisters⟩
    rintro y ⟨field, hfield, hchild⟩
    exact hmem field hfield y hchild
  | array valueKind child =>
    refine (registerChild_spec hnext child g).bind fun r => Triple.pure ?_
    rintro g' ⟨rfl, hmem, hregisters⟩
    exact ⟨rfl, hmem, hregisters⟩
  | map keyKind valueKind child =>
    refine (registerChild_spec hnext child g).bind fun r => Triple.pure ?_
    rintro g' ⟨rfl, hmem, hregisters⟩
    exact ⟨rfl, hmem, hregisters⟩

theorem commit_spec {g : Registry α} {handle : ℕ} {plan : Plan} :
    Triple (fun g' => g' = g) (commit out handle plan)
      (fun _ g' => g' = { g with commits := g.commits ++ [(handle, plan)] }) fun _ g' =>
        g' = g := by
  rintro _ rfl
  rw [commit]
  split
  · rfl
  · rfl

/-- The plan of a node is made if its children are registered. -/
theorem registerNode_returns {P : Registry α → Prop} {node : SchemaNode α}
    (h : ∀ y, node.Refers y → Returns P (next y) fun _ => P) :
    Returns P (registerNode next node) fun _ => P := by
  have hchild : ∀ child : Option (Identity α),
    (∀ y, child = some y → Returns P (next y) fun _ => P) →
      Returns P (registerChild next child) fun _ => P := by
    intro child hchild
    cases child with
    | none => exact .pure fun _ h => h
    | some y => exact (hchild y rfl).bind fun _ => .pure fun _ h => h
  have hfields : ∀ fields : List (FieldNode α),
      (∀ field ∈ fields, ∀ y, field.child = some y → Returns P (next y) fun _ => P) →
        Returns P (registerFields next fields) fun _ => P := by
    intro fields hfields
    induction fields with
    | nil => exact .pure fun _ h => h
    | cons field fields ih =>
      refine (hchild field.child (hfields field List.mem_cons_self)).bind fun _ => ?_
      exact (ih fun f hf => hfields f (List.mem_cons_of_mem _ hf)).bind fun _ => .pure fun _ h => h
  cases node with
  | message fields =>
    exact (hfields fields fun field hfield y hy => h y ⟨field, hfield, hy⟩).bind fun _ =>
      .pure fun _ h => h
  | array valueKind child => exact (hchild child h).bind fun _ => .pure fun _ h => h
  | map keyKind valueKind child => exact (hchild child h).bind fun _ => .pure fun _ h => h

variable [DecidableEq α]

/-- A handle is reserved for a node that has none. -/
def reserved (g : Registry α) (x : Identity α) : Registry α :=
  { g with
    wasmHandle := Function.update g.wasmHandle x (some (g.count + 1)), count := g.count + 1,
    touched := g.touched ++ [x] }

theorem reserved_self (g : Registry α) (x : Identity α) :
    (reserved g x).wasmHandle x = some (g.count + 1) :=
  Function.update_self ..

theorem reserved_of_ne {g : Registry α} {x y : Identity α} (h : y ≠ x) :
    (reserved g x).wasmHandle y = g.wasmHandle y := Function.update_of_ne h ..

theorem reserved_grows {g : Registry α} {x : Identity α} (hx : g.wasmHandle x = none) :
    Grows g (reserved g x) where
  valid hvalid := by
    -- The new handle is above all others.
    have habove : ∀ y, y ≠ x → (reserved g x).wasmHandle y ≠ some (g.count + 1) := by
      intro y hy hsome
      rw [reserved_of_ne hy] at hsome
      exact absurd (hvalid.given y _ hsome) (Nat.not_succ_le_self _)
    constructor
    · intro y z handle hy hz
      rcases eq_or_ne y x with rfl | hyx
      · rw [reserved_self] at hy
        cases hy
        by_contra hne
        exact habove z (Ne.symm hne) hz
      · rcases eq_or_ne z x with rfl | hzx
        · rw [reserved_self] at hz
          cases hz
          exact absurd hy (habove y hyx)
        · rw [reserved_of_ne hyx] at hy
          rw [reserved_of_ne hzx] at hz
          exact hvalid.unique y z handle hy hz
    · intro y handle hy
      rcases eq_or_ne y x with rfl | hyx
      · rw [reserved_self] at hy
        cases hy
        exact le_rfl
      · rw [reserved_of_ne hyx] at hy
        exact (hvalid.given y handle hy).trans (Nat.le_succ _)
  kept y handle hy := by
    have hyx : y ≠ x := by
      rintro rfl
      rw [hx] at hy
      cases hy
    rwa [reserved_of_ne hyx]
  count_le := Nat.le_succ _
  fresh y handle hnone hsome := by
    rcases eq_or_ne y x with rfl | hyx
    · rw [reserved_self] at hsome
      cases hsome
      exact ⟨Nat.lt_succ_self _, List.mem_append_right _ List.mem_cons_self⟩
    · rw [reserved_of_ne hyx, hnone] at hsome
      cases hsome
  touched y hy := by
    rcases List.mem_append.1 hy with hy | hy
    · exact .inl hy
    · rw [List.mem_singleton.1 hy]
      exact .inr hx
  still y hy := List.mem_append_left _ hy

theorem reserve_spec {g : Registry α} {x : Identity α} :
    Triple (fun g' => g' = g) (reserve out x)
      (fun handle g' => handle = g.count + 1 ∧ g' = reserved g x)
      fun _ g' => g' = g := by
  rintro _ rfl
  rw [reserve]
  split
  · rfl
  · exact ⟨rfl, rfl⟩

/-- The node itself, once its children are registered. -/
theorem Registers.commit {g g' : Registry α} {x : Identity α} {node : SchemaNode α}
    (hx : g.wasmHandle x = none) (hnode : nodes x = some node)
    (h : Registers nodes (reserved g x) g')
    (hrefers : ∀ y, node.Refers y → g'.wasmHandle y ≠ none) :
    Registers nodes g { g' with commits :=
      g'.commits ++ [(g.count + 1, planOf g'.wasmHandle node)] } := by
  have hself := h.grows.kept x _ (reserved_self g x)
  refine ⟨?_, ?_⟩
  · have hgrows := (reserved_grows hx).trans h.grows
    exact ⟨fun hvalid => ⟨(hgrows.valid hvalid).unique, (hgrows.valid hvalid).given⟩, hgrows.kept,
      hgrows.count_le, hgrows.fresh, hgrows.touched, hgrows.still⟩
  · obtain ⟨plans, hplans⟩ := h.commits
    refine ⟨plans ++ [(g.count + 1, planOf g'.wasmHandle node)], ?_, fun y handle hnone hsome => ?_,
      fun entry hentry => ?_⟩
    · rw [← List.append_assoc]
      exact congrArg (· ++ _) hplans.commits
    · rcases eq_or_ne y x with rfl | hyx
      · have heq : g'.wasmHandle y = some handle := hsome
        rw [hself] at heq
        cases heq
        exact ⟨node, hnode, List.mem_append_right _ List.mem_cons_self, hrefers⟩
      · obtain ⟨node', hnode', hmem, hrefers'⟩ :=
          hplans.all y handle (by rwa [reserved_of_ne hyx]) hsome
        exact ⟨node', hnode', List.mem_append_left _ hmem, hrefers'⟩
    · rcases List.mem_append.1 hentry with hentry | hentry
      · obtain ⟨y, node', hnone, hrest⟩ := hplans.only entry hentry
        exact ⟨y, node', (reserved_grows hx).none_of hnone, hrest⟩
      · rw [List.mem_singleton.1 hentry]
        exact ⟨x, node, hx, hself, hnode, rfl, hrefers⟩

/-- A call for a node: by induction on how deep its calls are nested. -/
theorem register_spec (fuel : ℕ) : Gives nodes (register out nodes fuel) := by
  induction fuel with
  | zero => exact fun _ _ _ _ => trivial
  | succ fuel ih =>
    intro x g g₀ hg
    subst hg
    simp only [register]
    rcases hx : g₀.wasmHandle x with _ | handle
    swap
    · exact ⟨hx, .refl g₀⟩
    rcases hnode : nodes x with _ | node
    · trivial
    refine ((reserve_spec.conseq (fun _ h => h) (fun _ _ h => h) ?_).bind fun handle => ?_) g₀ rfl
    · rintro _ _ rfl
      exact .refl _
    rintro g ⟨rfl, rfl⟩
    have hgrows := reserved_grows hx
    refine (((registerNode_spec ih node (reserved g₀ x)).conseq (fun _ h => h) (fun _ _ h => h)
        ?_).bind fun plan => ?_)
      _ rfl
    · exact fun _ g' hgrows' => hgrows.trans hgrows'
    rintro g' ⟨rfl, hrefers, hregisters⟩
    have hself := hregisters.grows.kept x _ (reserved_self g₀ x)
    refine ((commit_spec.conseq (fun _ h => h) (fun _ _ h => h) ?_).bind fun _ => Triple.pure ?_) g'
      rfl
    · rintro _ _ rfl
      exact hgrows.trans hregisters.grows
    · rintro _ rfl
      exact ⟨hself, hregisters.commit hx hnode hrefers⟩

/-! ## Calls that return -/

/-- The nodes that are not registered. -/
def unregistered (nodes : Nodes α) (g : Registry α) : Set (Identity α) :=
  {x | nodes x ≠ none ∧ g.wasmHandle x = none}

/-- The decoder has room for some more handles, and accepts all plans. -/
def Outside.Accepts (out : Outside G) (room : ℕ) : Prop :=
  (∀ k < room, out.reserveDecodeSchema k = .ok ⟨⟩) ∧ ∀ k words,
    out.commitDecodeSchema k words = .ok ⟨⟩

/-- Fewer than `fuel` nodes are not registered, and there is room for them. -/
def Fewer (nodes : Nodes α) (fuel room : ℕ) (g : Registry α) : Prop :=
  (unregistered nodes g).ncard < fuel ∧ g.touched.length + (unregistered nodes g).ncard ≤ room

/-- A node that is registered is one less of the others. -/
theorem Fewer.reserved {fuel room : ℕ} {g : Registry α} {x : Identity α}
    (h : Fewer nodes (fuel + 1) room g) (hfinite : {x | nodes x ≠ none}.Finite)
    (hx : nodes x ≠ none) (hhandle : g.wasmHandle x = none) :
    g.touched.length < room ∧ Fewer nodes fuel room (reserved g x) := by
  have hsub : unregistered nodes (Typescript.reserved g x) ⊂ unregistered nodes g := by
    refine ⟨fun z hz => ⟨hz.1, (reserved_grows hhandle).none_of hz.2⟩, fun hsub => ?_⟩
    have hmem := (hsub ⟨hx, hhandle⟩).2
    rw [reserved_self] at hmem
    cases hmem
  have hlt := Set.ncard_lt_ncard hsub (hfinite.subset fun y hy => hy.1)
  have hlength : (Typescript.reserved g x).touched.length = g.touched.length + 1 := by
    rw [Typescript.reserved, List.length_append, List.length_singleton]
  obtain ⟨hfew, hroom⟩ := h
  exact ⟨by omega, by omega, by omega⟩

/-- Where the decoder accepts, a call returns. The nodes that there are refer to each other. -/
theorem register_returns {room : ℕ} (hout : out.Accepts room)
    (hfinite : {x | nodes x ≠ none}.Finite)
    (hclosed : ∀ x node y, nodes x = some node → node.Refers y → nodes y ≠ none) (fuel : ℕ)
    {x : Identity α} (hx : nodes x ≠ none) :
    Returns (Fewer nodes fuel room) (register out nodes fuel x)
      fun _ g => g.touched.length + (unregistered nodes g).ncard ≤ room := by
  induction fuel generalizing x with
  | zero => exact fun g hg => absurd hg.1 (Nat.not_lt_zero _)
  | succ fuel ih =>
    -- A call below leaves no more nodes than before.
    have hnext : ∀ y, nodes y ≠ none → Returns (Fewer nodes fuel room) (register out nodes fuel y)
        fun _ => Fewer nodes fuel room := by
      intro y hy g hg
      obtain ⟨handle, g', hrun, hroom⟩ := ih hy g hg
      have hgrows := ((register_spec fuel y g).of_ok rfl hrun).2.grows
      have hsub : unregistered nodes g' ⊆ unregistered nodes g :=
        fun z hz => ⟨hz.1, hgrows.none_of hz.2⟩
      exact ⟨handle, g', hrun,
        (Set.ncard_le_ncard hsub (hfinite.subset fun y hy => hy.1)).trans_lt hg.1, hroom⟩
    intro g hg
    simp only [register]
    rcases hhandle : g.wasmHandle x with _ | handle
    swap
    · exact ⟨handle, g, rfl, hg.2⟩
    rcases hnode : nodes x with _ | node
    · exact absurd hnode hx
    -- The node itself is registered from here on.
    obtain ⟨hroom, hfewer⟩ := hg.reserved hfinite hx hhandle
    have hreserve : Returns (fun g' => g' = g) (reserve out x) fun _ => Fewer nodes fuel room := by
      intro g' hg'
      refine ⟨g.count + 1, reserved g x, ?_, hfewer⟩
      rw [hg', reserve, hout.1 _ hroom]
      rfl
    have hcommit : ∀ handle plan, Returns (Fewer nodes fuel room) (commit out handle plan)
        fun _ g => g.touched.length + (unregistered nodes g).ncard ≤ room := by
      intro handle plan g' hg'
      refine ⟨⟨⟩, { g' with commits := g'.commits ++ [(handle, plan)] }, ?_, hg'.2⟩
      rw [commit, hout.2]
    refine (hreserve.bind fun handle => (registerNode_returns fun y hy => ?_).bind fun plan => ?_) g
      rfl
    · exact hnext y (hclosed x node y hnode hy)
    · exact (hcommit handle plan).bind fun _ => .pure fun _ h => h

/-! ## Two caches -/

/-- The plan with other handles. -/
def Plan.rename (ρ : ℕ → ℕ) : Plan → Plan
  | message fields => message (fields.map fun field => { field with child := field.child.map ρ })
  | array valueKind child => array valueKind (child.map ρ)
  | map keyKind valueKind child => map keyKind valueKind (child.map ρ)

/-- What is committed, with other handles. -/
def renamed (ρ : ℕ → ℕ) (commits : List (ℕ × Plan)) : List (ℕ × Plan) :=
  commits.map fun entry => (ρ entry.1, entry.2.rename ρ)

/-- Handles above a bound are higher by `k`. -/
def raise (bound k handle : ℕ) : ℕ := if handle ≤ bound then handle else handle + k

theorem raise_injective (bound k : ℕ) : Function.Injective (raise bound k) := by
  intro h h' heq
  unfold raise at heq
  split at heq
  · split at heq
    · exact heq
    · omega
  · split at heq
    · omega
    · omega

/-- Registries that differ in the handles above a bound. -/
structure Raised (bound k : ℕ) (g g' : Registry α) : Prop where
  handle : ∀ x, g'.wasmHandle x = (g.wasmHandle x).map (raise bound k)
  count : g'.count = g.count + k
  above : bound ≤ g.count
  commits : g'.commits = renamed (raise bound k) g.commits

/-- Two ways of registering children. -/
def NextAgree (bound k : ℕ) (next next' : Identity α → Run (Registry α) (Thrown α) ℕ) : Prop :=
  ∀ x, Agree (Raised bound k) (fun handle handle' => handle' = raise bound k handle) (next x)
    (next' x)

omit [DecidableEq α] in
theorem registerNode_agree {bound k : ℕ} {next' : Identity α → Run (Registry α) (Thrown α) ℕ}
    (h : NextAgree bound k next next') (node : SchemaNode α) :
    Agree (Raised bound k) (fun plan plan' => plan' = plan.rename (raise bound k))
      (registerNode next node)
      (registerNode next' node) := by
  have hchild : ∀ child : Option (Identity α), Agree (Raised bound k)
      (fun handle handle' => handle' = handle.map (raise bound k)) (registerChild next child)
      (registerChild next' child) := by
    intro child
    cases child with
    | none => exact .pure rfl
    | some y =>
      refine (h y).bind fun handle handle' hh => .pure ?_
      rw [hh, Option.map_some]
  have hfields : ∀ fields : List (FieldNode α), Agree (Raised bound k)
      (fun r r' => r' = r.map fun field => { field with child := field.child.map (raise bound k) })
      (registerFields next fields) (registerFields next' fields) := by
    intro fields
    induction fields with
    | nil => exact .pure rfl
    | cons field fields ih =>
      refine (hchild field.child).bind fun child child' hc => ih.bind fun r r' hr => .pure ?_
      rw [hc, hr, List.map_cons]
  cases node with
  | message fields =>
    refine (hfields fields).bind fun r r' hr => .pure ?_
    rw [hr, Plan.rename]
  | array valueKind child =>
    refine (hchild child).bind fun r r' hr => .pure ?_
    rw [hr, Plan.rename]
  | map keyKind valueKind child =>
    refine (hchild child).bind fun r r' hr => .pure ?_
    rw [hr, Plan.rename]

theorem reserve_agree {bound k : ℕ} (x : Identity α) :
    Agree (Raised bound k) (fun handle handle' => handle' = raise bound k handle)
      (reserve (Outside.sound G) x)
      (reserve (Outside.sound G) x) := by
  intro g g' hg handle₁ g₁ handle₂ g₂ h₁ h₂
  cases h₁
  cases h₂
  have hraise : raise bound k (g.count + 1) = g'.count + 1 := by
    have := hg.above
    rw [raise, if_neg (by omega), hg.count]
    omega
  refine ⟨hraise.symm, fun y => ?_, ?_, hg.above.trans (Nat.le_succ _), hg.commits⟩
  · rcases eq_or_ne y x with rfl | hyx
    · simp only [Function.update_self, Option.map_some, hraise]
    · simp only [Function.update_of_ne hyx, hg.handle y]
  · simp only [hg.count]
    omega

omit [DecidableEq α] in
theorem commit_agree {bound k : ℕ} (handle : ℕ) (plan : Plan) :
    Agree (Raised bound k) (fun _ _ => True) (commit (Outside.sound G) handle plan)
      (commit (Outside.sound G) (raise bound k handle) (plan.rename (raise bound k))) := by
  intro g g' hg _ g₁ _ g₂ h₁ h₂
  cases h₁
  cases h₂
  refine ⟨trivial, hg.handle, hg.count, hg.above, ?_⟩
  simp only [hg.commits, renamed, List.map_append, List.map_cons, List.map_nil]

/-- Nodes that are in both caches are registered alike. -/
theorem register_agree {bound k : ℕ} {nodes' : Nodes α} (hnodes : Kept nodes nodes')
    (fuel fuel' : ℕ) :
    NextAgree bound k (register (Outside.sound G) nodes fuel)
      (register (Outside.sound G) nodes' fuel') := by
  induction fuel generalizing fuel' with
  | zero => exact fun _ _ _ _ _ _ _ _ h => by cases h
  | succ fuel ih =>
    rcases fuel' with _ | fuel'
    · exact fun _ _ _ _ _ _ _ _ _ h => by cases h
    intro x g g' hg handle₁ g₁ handle₂ g₂ h₁ h₂
    simp only [register] at h₁ h₂
    rw [hg.handle x] at h₂
    rcases hx : g.wasmHandle x with _ | handle
    · rcases hnode : nodes x with _ | node
      · rw [hx, hnode] at h₁
        cases h₁
      · rw [hx, hnode] at h₁
        rw [hx, hnodes x node hnode] at h₂
        -- The node is new to both.
        refine Agree.bind (Q := fun handle handle' => handle' = raise bound k handle)
          (reserve_agree x)
          (fun handle handle' hh => ?_) g g' hg handle₁ g₁ handle₂ g₂ h₁ h₂
        refine (registerNode_agree (ih fuel') node).bind fun plan plan' hp => ?_
        rw [hh, hp]
        exact (commit_agree handle plan).bind fun _ _ _ => .pure rfl
    · rw [hx] at h₁ h₂
      cases h₁
      cases h₂
      exact ⟨rfl, hg⟩

end

end ProtoCache.Typescript
