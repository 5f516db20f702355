import ProtoCache.Typescript.Arena
import Mathlib.Data.Finset.Basic

/-!
# Cycles are refused exactly

The writer of the TypeScript package keeps the objects on the current path twice, on a
stack and, above a length, in a set, in a context that outlives the call and that every
exception has to restore. Here the current path is what it should be: the objects that the
walk has entered and not left, which are part of the place in the walk and not of a state
(`pathWalk`).

* `Represents.enterCycle`, `Represents.leaveCycle`: whichever of the two the module goes
  by, it refuses an object exactly if it is on the path;
* `serializeBody_simulates`: two ways of entering objects that do alike step by step make
  writers that do;
* `serializeWithArena_refines`: whatever a program does with the writer, from its own code
  or from code that the writer runs, is what it would do with one that knows the path.
-/

namespace ProtoCache.Typescript

open Exceptional

/-! ## The stack and the set -/

section

variable {α : Type} [DecidableEq α]

theorem scan_eq_true {value : α} {stack : List α} : scan value stack = true ↔ value ∈ stack := by
  induction stack with
  | nil => exact iff_of_false Bool.false_ne_true List.not_mem_nil
  | cons top stack ih => rw [scan, Bool.or_eq_true, beq_iff_eq, ih, List.mem_cons, eq_comm]

/-- The context is that of a path: no object is on it twice, and the set is in use above
    the threshold. At the threshold it may be in use or not. -/
structure Represents (path : List α) (context : Context α) : Prop where
  stack : context.stack = path
  nodup : path.Nodup
  scanned : context.set = none → path.length ≤ cycleSetThreshold
  listed : ∀ set, context.set = some set → set = path.toFinset ∧ cycleSetThreshold ≤ path.length

/-- The empty context is that of the empty path, and that of no other kind. -/
theorem represents_nil {context : Context α} : Represents [] context ↔ context = {} := by
  constructor
  · rintro ⟨hstack, -, -, hlisted⟩
    rcases context with ⟨stack, _ | set⟩
    · cases hstack
      rfl
    · have := (hlisted set rfl).2
      exact absurd this (Nat.not_succ_le_zero _)
  · rintro rfl
    exact ⟨rfl, List.nodup_nil, fun _ => Nat.zero_le _, fun set h => by cases h⟩

namespace Represents

variable {path : List α} {context : Context α}

/-- An object on the path is refused. -/
theorem enterCycle_of_mem {value : α} (h : Represents path context) (hv : value ∈ path) :
    enterCycle value context = .error cyclic := by
  rcases hset : context.set with _ | set
  · rw [enterCycle, hset]
    exact if_pos (scan_eq_true.2 (h.stack ▸ hv))
  · rw [enterCycle, hset]
    refine if_pos ?_
    rw [(h.listed set hset).1]
    exact List.mem_toFinset.2 hv

/-- Another object is not, and is on the path from then on. -/
theorem enterCycle_of_notMem {value : α} (h : Represents path context) (hv : value ∉ path) :
    ∃ context', enterCycle value context = .ok context' ∧ Represents (value :: path) context' := by
  have hnodup : (value :: path).Nodup := List.nodup_cons.2 ⟨hv, h.nodup⟩
  rcases hset : context.set with _ | set
  · have hscan : ¬scan value context.stack = true := fun hs => hv (h.stack ▸ scan_eq_true.1 hs)
    have hle := h.scanned hset
    rw [enterCycle, hset]
    dsimp only
    rw [if_neg hscan, h.stack]
    by_cases hlen : path.length = cycleSetThreshold
    · -- The path is too long for the scan from here on.
      rw [if_pos hlen]
      refine ⟨_, rfl, rfl, hnodup, fun hnone => (by cases hnone), fun set' hset' => ?_⟩
      cases hset'
      exact ⟨List.toFinset_cons.symm, by rw [List.length_cons, hlen]; exact Nat.le_succ _⟩
    · rw [if_neg hlen]
      refine ⟨_, rfl, rfl, hnodup, fun _ => ?_, fun set' hset' => (by cases hset')⟩
      exact Nat.lt_of_le_of_ne hle hlen
  · obtain ⟨hlist, hle⟩ := h.listed set hset
    have hmem : value ∉ set := by rwa [hlist, List.mem_toFinset]
    rw [enterCycle, hset]
    dsimp only
    rw [if_neg hmem, h.stack]
    refine ⟨_, rfl, rfl, hnodup, fun hnone => (by cases hnone), fun set' hset' => ?_⟩
    cases hset'
    exact ⟨by rw [hlist, List.toFinset_cons], Nat.le_succ_of_le hle⟩

/-- The last object on the path is left. -/
theorem leaveCycle {value : α} (h : Represents (value :: path) context) :
    Represents path (leaveCycle value context) := by
  obtain ⟨hv, hnodup⟩ := List.nodup_cons.1 h.nodup
  have hstack : context.stack.tail = path := by rw [h.stack, List.tail_cons]
  rcases hset : context.set with _ | set
  · have hle := h.scanned hset
    rw [List.length_cons] at hle
    rw [Typescript.leaveCycle, hset]
    exact ⟨hstack, hnodup, fun _ => Nat.le_of_succ_le hle, fun set' hset' => (by cases hset')⟩
  · obtain ⟨hlist, -⟩ := h.listed set hset
    rw [Typescript.leaveCycle, hset]
    dsimp only
    rw [hstack]
    by_cases hlen : path.length < cycleSetThreshold
    · rw [if_pos hlen]
      exact ⟨rfl, hnodup, fun _ => hlen.le, fun set' hset' => (by cases hset')⟩
    · rw [if_neg hlen]
      refine ⟨rfl, hnodup, fun hnone => (by cases hnone), fun set' hset' => ?_⟩
      cases hset'
      refine ⟨?_, Nat.le_of_not_lt hlen⟩
      rw [hlist, List.toFinset_cons, Finset.erase_insert (by rwa [List.mem_toFinset])]

end Represents

end

/-! ## Two ways of entering objects -/

/-- Two ways of running operations and of entering objects that do alike. -/
structure Walk.Follows {ι S T σ α : Type} (R : ι → S → T → Prop) (W : Walk S σ α) (V : Walk T σ α) :
    Prop where
  act : ∀ {β : Type} (a : Act σ α β), Simulates R (W.act a) (V.act a)
  guarded : ∀ {β : Type} (a : α) {x : Run S (Thrown α) β} {y : Run T (Thrown α) β},
    Simulates R x y → Simulates R (W.guarded a x) (V.guarded a y)

section

variable {ι S T σ α : Type} {R : ι → S → T → Prop} {E : Engine σ α} {W : Walk S σ α}
  {V : Walk T σ α}

/-- What a value is, is found alike. -/
theorem asArray_simulates (h : W.Follows R V) (value : Value α) :
    Simulates R (asArray E W value) (asArray E V value) := by
  cases value with
  | object a => exact (h.act _).bind fun _ => .pure _
  | _ => exact .pure _

theorem asMap_simulates (h : W.Follows R V) (value : Value α) :
    Simulates R (asMap E W value) (asMap E V value) := by
  cases value with
  | object a => exact (h.act _).bind fun _ => .pure _
  | _ => exact .pure _

theorem asBytes_simulates (h : W.Follows R V) (value : Value α) :
    Simulates R (asBytes E W value) (asBytes E V value) := by
  cases value with
  | object a => exact (h.act _).bind fun _ => .pure _
  | _ => exact .pure _

theorem emptyOf_simulates (h : W.Follows R V) {x : Run S (Thrown α) (Option α)}
    {y : Run T (Thrown α) (Option α)} (hxy : Simulates R x y) (count : α → Act σ α (Value α)) :
    Simulates R (emptyOf W x count) (emptyOf V y count) := by
  refine hxy.bind fun found => ?_
  cases found with
  | none => exact .pure _
  | some a => exact (h.act _).bind fun _ => .pure _

theorem isDefault_simulates (h : W.Follows R V) (field : Field α) (value : Value α) :
    Simulates R (isDefault E W field value) (isDefault E V field value) := by
  have hmap := emptyOf_simulates h (asMap_simulates (E := E) h value) E.size
  have harray := emptyOf_simulates h (asArray_simulates (E := E) h value) E.length
  have hbytes := emptyOf_simulates h (asBytes_simulates (E := E) h value) E.byteLength
  unfold isDefault
  cases value with
  | undefined => exact .pure _
  | null => exact .pure _
  | _ =>
    dsimp only
    split
    · exact hmap
    split
    · exact harray
    cases field.valueKind with
    | bytes => exact hbytes
    | array => exact harray
    | map => exact hmap
    | _ => exact .pure _

/-- A loop over an iterator, by induction on the rounds. -/
theorem forOf_simulates {β : Type} (h : W.Follows R V) {next : Act σ α (Option β)}
    {close : Act σ α PUnit} {x : β → Run S (Thrown α) PUnit} {y : β → Run T (Thrown α) PUnit}
    (hxy : ∀ b, Simulates R (x b) (y b)) (rounds : ℕ) :
    Simulates R (forOf W next close x rounds) (forOf V next close y rounds) := by
  induction rounds with
  | zero => exact .never
  | succ rounds ih =>
    refine (h.act next).bind fun item => ?_
    cases item with
    | none => exact .pure _
    | some item => exact ((hxy item).onThrow (h.act close)).bind fun _ => ih

theorem writeKey_simulates (h : W.Follows R V) (kind : Kind) (value : Value α) :
    Simulates R (writeKey E W kind value) (writeKey E V kind value) := by
  unfold writeKey
  split
  · exact h.act _
  · exact h.act _

theorem writeArray_simulates (h : W.Follows R V) (rounds : ℕ) (kind : Kind)
    {x : Value α → Run S (Thrown α) PUnit} {y : Value α → Run T (Thrown α) PUnit}
    (hxy : ∀ value, Simulates R (x value) (y value)) (value : Value α) :
    Simulates R (writeArray E W rounds kind x value) (writeArray E V rounds kind y value) := by
  unfold writeArray
  split
  · exact h.act _
  refine (asArray_simulates h value).bind fun array => ?_
  cases array with
  | none => exact .throw _
  | some a =>
    refine h.guarded a ((h.act _).bind fun _ => (h.act _).bind fun _ => (h.act _).bind fun _ => ?_)
    exact (forOf_simulates h hxy rounds).bind fun _ => h.act _

theorem writeMap_simulates (h : W.Follows R V) (rounds : ℕ) (keyKind valueKind : Kind)
    {x : Value α → Run S (Thrown α) PUnit} {y : Value α → Run T (Thrown α) PUnit}
    (hxy : ∀ value, Simulates R (x value) (y value)) (value : Value α) :
    Simulates R (writeMap E W rounds keyKind valueKind x value)
      (writeMap E V rounds keyKind valueKind y value) := by
  refine (asMap_simulates h value).bind fun map => ?_
  cases map with
  | none => exact .throw _
  | some a =>
    refine h.guarded a ((h.act _).bind fun _ => (h.act _).bind fun _ => (h.act _).bind fun _ => ?_)
    refine (forOf_simulates h (fun entry => ?_) rounds).bind fun _ => h.act _
    exact (writeKey_simulates h keyKind entry.1).bind fun _ => hxy entry.2

/-- Writers of values that do alike. -/
def WritersFollow (R : ι → S → T → Prop) (x : ValueWriter S α) (y : ValueWriter T α) : Prop :=
  ∀ kind resolver omitEmptyMessage value,
    Simulates R (x kind resolver omitEmptyMessage value) (y kind resolver omitEmptyMessage value)

variable {x : ValueWriter S α} {y : ValueWriter T α}

theorem writeField_simulates (h : W.Follows R V) (rounds : ℕ) (hxy : WritersFollow R x y)
    (field : Field α) (value : Value α) :
    Simulates R (writeField E W rounds x field value) (writeField E V rounds y field value) := by
  unfold writeField
  split
  · exact writeMap_simulates h rounds _ _ (hxy _ _ _) value
  split
  · exact writeArray_simulates h rounds _ (hxy _ _ _) value
  · exact hxy _ _ _ value

/-- The loop over the fields, by induction on the fields. -/
theorem writeFields_simulates (h : W.Follows R V) (rounds : ℕ) (hxy : WritersFollow R x y)
    (record : α) (fields : List (Field α)) (count : ℕ) :
    Simulates R (writeFields E W rounds x record fields count)
      (writeFields E V rounds y record fields count) := by
  induction fields generalizing count with
  | nil => exact .pure _
  | cons field fields ih =>
    refine (h.act _).bind fun fieldValue => (isDefault_simulates h field fieldValue).bind
      fun skipped => ?_
    cases skipped with
    | true => exact ih count
    | false =>
      refine (h.act _).bind fun _ => (writeField_simulates h rounds hxy field fieldValue).bind
        fun _ => ?_
      exact ih (count + 1)

theorem writeMessage_simulates (h : W.Follows R V) (rounds : ℕ) (hxy : WritersFollow R x y)
    (fields : List (Field α)) (value : Value α) :
    Simulates R (writeMessage E W rounds x fields value)
      (writeMessage E V rounds y fields value) := by
  cases value with
  | object a =>
    unfold writeMessage
    dsimp only
    split
    · exact .throw _
    refine h.guarded a ((h.act _).bind fun _ => ?_)
    refine (writeFields_simulates h rounds hxy a fields 0).bind fun count => ?_
    exact (h.act _).bind fun _ => (h.act _).bind fun _ => .pure _
  | _ => exact .throw _

theorem requireExact_simulates (h : W.Follows R V) (text : String) (type : α) (value : Value α) :
    Simulates R (requireExact E W text type value) (requireExact E V text type value) := by
  cases value with
  | object a =>
    unfold requireExact
    dsimp only
    split
    · exact .throw _
    refine (h.act _).bind fun exact_ => ?_
    cases exact_ with
    | true => exact .pure _
    | false => exact .throw _
  | _ => exact .throw _

/-- One level, given the next one. -/
theorem writeValueWith_simulates (h : W.Follows R V) (rounds : ℕ)
    {deeper : Option (ValueWriter S α)} {deeper' : Option (ValueWriter T α)}
    (hdeeper : Option.Rel (WritersFollow R) deeper deeper') :
    WritersFollow R (writeValueWith E W rounds deeper) (writeValueWith E V rounds deeper') := by
  intro kind resolver omitEmptyMessage value
  have hnext : ∀ {β : Type} {f : ValueWriter S α → Run S (Thrown α) β}
    {g : ValueWriter T α → Run T (Thrown α) β},
      (∀ x y, WritersFollow R x y → Simulates R (f x) (g y)) →
        Simulates R (nextDepth deeper f) (nextDepth deeper' g) := by
    intro β f g hfg
    rcases hdeeper with @⟨x, y, hxy⟩ | _
    · exact hfg x y hxy
    · exact .throw _
  unfold writeValueWith
  cases kind with
  | message =>
    refine (h.act _).bind fun type => (h.act _).bind fun fields => ?_
    refine (requireExact_simulates h _ type value).bind fun _ => (h.act _).bind fun start => ?_
    refine (hnext fun x y hxy => writeMessage_simulates h rounds hxy fields value).bind
      fun count => ?_
    split
    · exact (h.act _).bind fun _ => (h.act _).bind fun _ => .pure _
    · exact .pure _
  | array =>
    refine (h.act _).bind fun schema => hnext fun x y hxy => ?_
    exact writeArray_simulates h rounds _ (hxy _ _ _) value
  | map =>
    refine (h.act _).bind fun schema => hnext fun x y hxy => ?_
    exact writeMap_simulates h rounds _ _ (hxy _ _ _) value
  | _ => exact h.act _

/-- All levels, by induction on how many there are. -/
theorem writeValue_simulates (h : W.Follows R V) (rounds levels : ℕ) :
    WritersFollow R (writeValue E W rounds levels) (writeValue E V rounds levels) := by
  induction levels with
  | zero => exact writeValueWith_simulates h rounds .none
  | succ levels ih => exact writeValueWith_simulates h rounds (.some ih)

theorem serializeBody_simulates (h : W.Follows R V) (rounds : ℕ) (call : Call α) :
    Simulates R (serializeBody E W rounds call) (serializeBody E V rounds call) := by
  have hwrite := writeValue_simulates (E := E) h rounds maxDepth
  have hroot : Simulates R (requireRoot E W call.type call.value)
      (requireRoot E V call.type call.value) := by
    cases call.type with
    | message constructor => exact requireExact_simulates h _ constructor call.value
    | _ => exact .pure _
  have hvalue : Simulates R (writeRoot E W rounds call.type call.value)
      (writeRoot E V rounds call.type call.value) := by
    cases call.type with
    | message constructor =>
      refine (h.act _).bind fun fields => ?_
      exact (writeMessage_simulates h rounds hwrite fields call.value).bind fun _ => .pure _
    | array => exact writeArray_simulates h rounds _ (hwrite _ _ _) call.value
    | map => exact writeMap_simulates h rounds _ _ (hwrite _ _ _) call.value
    | unsupported => exact .throw _
  refine (h.act _).bind fun handle => hroot.bind fun _ => (h.act _).bind fun _ => ?_
  exact hvalue.bind fun _ => h.act _

end

/-! ## The path itself -/

section

variable {σ α : Type} [DecidableEq α]

/-- The error of a call while another is under way. -/
def notReentrant : Thrown α := .typeError "ProtoCache WASM serialization is not reentrant"

/-- The walk that knows the current path: it throws if an object is on it, and otherwise
    the object is on the path for as long as it is being written, and then the path is
    what it was. All calls back are refused. -/
def pathWalk : Walk (List α × σ) σ α where
  act a := fun s => (a s.2).run (fun _ => Run.throw notReentrant) s
  guarded value body := fun s =>
    if value ∈ s.1 then some (.error cyclic, s)
    else body.always (fun s' => (s.1, s'.2)) (value :: s.1, s.2)

/-- A call that knows the current path, which is empty at first; there is nothing else
    for it to keep. -/
def serializeOnPath (E : Engine σ α) (rounds : ℕ) (call : Call α) :
    Run (PUnit × σ) (Thrown α) (List UInt8) := fun s =>
  (serializeBody E pathWalk rounds call ([], s.2)).map fun r => (r.1, (s.1, r.2.2))

/-- The module, while a call is under way and at a path. -/
def Module.At (path : List α) (m : Module α) (path' : List α) : Prop :=
  m.active = true ∧ Represents path m.context ∧ path' = path

/-- A call while another is under way throws, and changes nothing. -/
theorem serializeWithArena_active {E : Engine σ α} {rounds nested : ℕ} {call : Call α}
    {s : Module α × σ} (h : s.1.active = true) :
    serializeWithArena E rounds nested call s = some (.error notReentrant, s) := by
  unfold serializeWithArena
  exact if_pos h

/-- The walk of the module is at the current path. -/
theorem moduleWalk_follows {again : Call α → Run (Module α × σ) (Thrown α) (List UInt8)}
    (hagain : ∀ call (s : Module α × σ), s.1.active = true →
      again call s = some (.error notReentrant, s)) :
    (moduleWalk again).Follows (Guest.Beside Module.At) pathWalk where
  act a := by
    rintro path ⟨m, s⟩ ⟨_, _⟩ ⟨hm, rfl⟩
    refine Guest.simulates (fun call => ?_) (a s) path (m, s) (_, s) ⟨hm, rfl⟩
    intro path s t hst
    rw [hagain call s hst.1.1]
    exact alike_some hst
  guarded value x y hxy := by
    rintro _ ⟨m, s⟩ ⟨path, _⟩ ⟨⟨hactive, hpath, rfl⟩, rfl⟩
    by_cases hv : value ∈ path
    · -- Both refuse the object.
      have henter := hpath.enterCycle_of_mem hv
      simp only [moduleWalk, pathWalk, henter, if_pos hv]
      exact alike_some ⟨⟨hactive, hpath, rfl⟩, rfl⟩
    · obtain ⟨context, henter, hcontext⟩ := hpath.enterCycle_of_notMem hv
      simp only [moduleWalk, pathWalk, henter, if_neg hv]
      -- Inside, the object is on the path; when it is left, it is the last one there.
      refine (hxy (value :: path) (⟨context, m.active⟩, s) (value :: path, s)
        ⟨⟨hactive, hcontext, rfl⟩, rfl⟩).always ?_
      rintro ⟨m', s'⟩ ⟨_, _⟩ ⟨⟨hactive', hpath', rfl⟩, rfl⟩
      exact ⟨⟨hactive', hpath'.leaveCycle, rfl⟩, rfl⟩

/-- A call to the module that is idle, against one that knows the path. The module is idle
    again when the call has ended, however it has. -/
theorem serializeWithArena_simulates (E : Engine σ α) (rounds nested : ℕ) (call : Call α) :
    Simulates (Guest.Beside fun (_ : PUnit) (m : Module α) (_ : PUnit) => m = Module.initial)
      (serializeWithArena E rounds (nested + 1) call) (serializeOnPath E rounds call) := by
  rintro _ ⟨_, s⟩ ⟨_, _⟩ ⟨rfl, rfl⟩
  have hwalk : (moduleWalk (serializeWithArena E rounds nested)).Follows (Guest.Beside Module.At)
    pathWalk :=
    moduleWalk_follows fun call s h => serializeWithArena_active h
  have hstart : Guest.Beside Module.At [] ((⟨{}, true⟩ : Module α), s) ([], s) :=
    ⟨⟨rfl, represents_nil.2 rfl, rfl⟩, rfl⟩
  have hbody := serializeBody_simulates (E := E) hwalk rounds call [] _ _ hstart
  have hcode : serializeWithArena E rounds (nested + 1) call (Module.initial, s) =
      (serializeBody E (moduleWalk (serializeWithArena E rounds nested)) rounds call).always
        (fun s => ({ s.1 with active := false }, s.2)) (⟨{}, true⟩, s) := by
    rw [serializeWithArena]
    exact if_neg Bool.false_ne_true
  rw [hcode]
  rcases hbody.cases with ⟨hx, hy⟩ | ⟨r, ⟨m, s'⟩, ⟨_, _⟩, hx, hy, ⟨-, hpath, rfl⟩, rfl⟩
  · simp only [Run.always, serializeOnPath, hx, hy]
    exact alike_none
  · simp only [Run.always, serializeOnPath, hx, hy]
    have hcontext : m.context = {} := represents_nil.1 hpath
    exact alike_some ⟨congrArg (Module.mk · false) hcontext, rfl⟩

/-- **Cycles.** Let a program do anything with the writer: call it, from its own code or
    from code that the writer runs (a resolver, a getter, an iterator), go on after an
    exception or let it pass. It does what it would do with a writer that knows the
    current path, throws exactly if an object is on it, and keeps nothing from one call to
    the next; and the context and the flag are in the end what they were at first. -/
theorem serializeWithArena_refines {β : Type} (E : Engine σ α) (rounds nested : ℕ)
    (program : Guest σ (Thrown α) (Call α) (List UInt8) β) (s : σ) :
    program.run (serializeWithArena E rounds (nested + 1)) (Module.initial, s) =
      (program.run (serializeOnPath E rounds) (⟨⟩, s)).map fun r =>
        (r.1, (Module.initial, r.2.2)) := by
  have h := Guest.simulates (serializeWithArena_simulates E rounds nested) program ⟨⟩
    (Module.initial, s) (⟨⟩, s)
    ⟨rfl, rfl⟩
  rcases h.cases with ⟨hx, hy⟩ | ⟨r, ⟨m, s'⟩, ⟨_, t⟩, hx, hy, hst⟩
  · rw [hx, hy, Option.map_none]
  · obtain ⟨hm, heq⟩ := hst
    cases hm
    cases heq
    rw [hx, hy]
    rfl

end

end ProtoCache.Typescript
