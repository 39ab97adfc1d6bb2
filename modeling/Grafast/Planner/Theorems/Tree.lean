import Grafast.Planner.Finalize

namespace Grafast

variable {T L S K : Type}

-- An induction along the wrappers of a completer.
theorem Completer.chain_induction {P : Completer T L S → Prop} (leaf : ∀ type, P (.leaf type))
    (object : ∀ type child, P (.object type child)) (abstract : ∀ type plans, P (.abstract type plans))
    (list : ∀ item, P item → P (.list item)) (nonNull : ∀ inner, P inner → P (.nonNull inner)) :
    ∀ completer, P completer
  | .leaf type           => leaf type
  | .object type child   => object type child
  | .abstract type plans => abstract type plans
  | .list item           => list item (chain_induction leaf object abstract list nonNull item)
  | .nonNull inner       => nonNull inner (chain_induction leaf object abstract list nonNull inner)

section Rebuild

variable {onStep : S → S} {onLayer : List S → L → L}

theorem rebuildFields_eq (fields : List (FieldPlan T L S)) :
    rebuildFields onStep onLayer fields = fields.map (·.rebuild onStep onLayer) := by
  induction fields
  case nil          => rfl
  case cons f fs hi => rw [rebuildFields, hi, List.map_cons]

@[simp]
theorem FieldPlan.rebuild_step (f : FieldPlan T L S) :
    (f.rebuild onStep onLayer).step = onStep f.step := by
  cases f
  rfl

@[simp]
theorem ObjectPlan.rebuild_steps (op : ObjectPlan T L S) :
    (op.rebuild onStep onLayer).fields.map (·.step) = op.fields.map fun f => onStep f.step := by
  cases op
  simp [ObjectPlan.rebuild, rebuildFields_eq]

@[simp]
theorem ObjectPlan.rebuild_layer (op : ObjectPlan T L S) :
    (op.rebuild onStep onLayer).layer = onLayer (op.fields.map fun f => onStep f.step) op.layer := by
  cases op
  simp [ObjectPlan.rebuild, rebuildFields_eq, Function.comp_def]

theorem Completer.findObject_rebuild (completer : Completer T L S) :
    (completer.rebuild onStep onLayer).findObject = completer.findObject.map (·.rebuild onStep onLayer) := by
  induction completer using Completer.chain_induction
  case leaf           => rfl
  case object         => rfl
  case abstract       => rfl
  case list item hi   => exact hi
  case nonNull _ hi   => exact hi

theorem FieldPlan.rebuild_findObject (f : FieldPlan T L S) : (f.rebuild onStep onLayer).completer.findObject =
    f.completer.findObject.map (·.rebuild onStep onLayer) := by
  cases f
  exact Completer.findObject_rebuild _

theorem ObjectPlan.rebuild_fields (op : ObjectPlan T L S) :
    (op.rebuild onStep onLayer).fields = op.fields.map (·.rebuild onStep onLayer) := by
  cases op
  exact rebuildFields_eq _

mutual

-- Layers that are rebuilt twice.
theorem ObjectPlan.rebuild_rebuild (g : List S → L → L) : (t : ObjectPlan T L S) →
    (t.rebuild onStep onLayer).rebuild id g =
      t.rebuild onStep fun steps layer => g steps (onLayer steps layer)
  | ⟨fields, layer⟩ => by
    have hf := rebuildFields_rebuildFields g fields
    have hs : (rebuildFields onStep onLayer fields).map (·.step) = fields.map fun f => onStep f.step :=
      ObjectPlan.rebuild_steps ⟨fields, layer⟩
    have hs' : (rebuildFields onStep (fun steps layer => g steps (onLayer steps layer)) fields).map (·.step) =
        fields.map fun f => onStep f.step :=
      ObjectPlan.rebuild_steps ⟨fields, layer⟩
    simp only [ObjectPlan.rebuild, hf, hs, hs']

theorem rebuildFields_rebuildFields (g : List S → L → L) : (fields : List (FieldPlan T L S)) →
    rebuildFields id g (rebuildFields onStep onLayer fields) =
      rebuildFields onStep (fun steps layer => g steps (onLayer steps layer)) fields
  | []                                 => rfl
  | ⟨_, _, _, completer, _⟩ :: fields => by
    have hc := Completer.rebuild_rebuild g completer
    have hf := rebuildFields_rebuildFields g fields
    simp only [rebuildFields, FieldPlan.rebuild, id_eq]
    rw [hc, hf]

theorem Completer.rebuild_rebuild (g : List S → L → L) : (completer : Completer T L S) →
    (completer.rebuild onStep onLayer).rebuild id g =
      completer.rebuild onStep fun steps layer => g steps (onLayer steps layer)
  | .leaf _         => rfl
  | .object _ child => by simp only [Completer.rebuild, ObjectPlan.rebuild_rebuild g child]
  | .abstract _ _   => rfl
  | .list item      => by simp only [Completer.rebuild, Completer.rebuild_rebuild g item]
  | .nonNull inner  => by simp only [Completer.rebuild, Completer.rebuild_rebuild g inner]

end

end Rebuild

section Scopes

variable {onStep : Ref → Ref} {onLayer : List Ref → LayerPlan → LayerPlan}

mutual

-- Rebuilding a tree rebuilds each of its object plans in place.
theorem ObjectPlan.scopes_rebuild
    (h : ∀ steps layer, (onLayer steps layer).parentStep = onStep layer.parentStep)
    (above : List Ref) : (t : OutputPlan T) →
    (t.rebuild onStep onLayer).scopes (above.map onStep) =
      (t.scopes above).map fun (above, op) => (above.map onStep, op.rebuild onStep onLayer)
  | ⟨fields, layer⟩ => by
    have hf := fieldScopes_rebuild h (layer.parentStep :: above) fields
    simp only [ObjectPlan.scopes, ObjectPlan.rebuild, List.map_cons, h] at hf ⊢
    rw [hf]

theorem fieldScopes_rebuild
    (h : ∀ steps layer, (onLayer steps layer).parentStep = onStep layer.parentStep)
    (above : List Ref) : (fields : List (FieldPlan T LayerPlan Ref)) →
    fieldScopes (above.map onStep) (rebuildFields onStep onLayer fields) =
      (fieldScopes above fields).map fun (above, op) =>
        (above.map onStep, op.rebuild onStep onLayer)
  | []                                 => rfl
  | ⟨_, _, _, completer, _⟩ :: fields => by
    have hc := Completer.scopes_rebuild h above completer
    have hf := fieldScopes_rebuild h above fields
    simp only [rebuildFields, FieldPlan.rebuild, fieldScopes, List.map_append, hc, hf]

theorem Completer.scopes_rebuild
    (h : ∀ steps layer, (onLayer steps layer).parentStep = onStep layer.parentStep)
    (above : List Ref) : (completer : Completer T LayerPlan Ref) →
    (completer.rebuild onStep onLayer).scopes (above.map onStep) =
      (completer.scopes above).map fun (above, op) =>
        (above.map onStep, op.rebuild onStep onLayer)
  | .leaf _         => rfl
  | .object _ child => ObjectPlan.scopes_rebuild h above child
  | .abstract _ _   => rfl
  | .list item      => Completer.scopes_rebuild h above item
  | .nonNull inner  => Completer.scopes_rebuild h above inner

end

variable {t : OutputPlan T}

mutual

theorem ObjectPlan.has_of_mem_scopes {above : List Ref} {e : List Ref × OutputPlan T} :
    (s : OutputPlan T) → t.Has above s → e ∈ s.scopes above → t.Has e.fst e.snd
  | ⟨fields, layer⟩, h, he => by
    cases List.mem_cons.mp he
    case inl he => exact he ▸ h
    case inr he =>
      exact has_of_mem_fieldScopes fields (fun _ hf _ hc => .child h hf hc) he

theorem has_of_mem_fieldScopes {above : List Ref} {e : List Ref × OutputPlan T} :
    (fields : List (FieldPlan T LayerPlan Ref)) →
    (∀ f ∈ fields, ∀ child, f.completer.findObject = some child → t.Has above child) →
    e ∈ fieldScopes above fields → t.Has e.fst e.snd
  | [], _, he                           => absurd he List.not_mem_nil
  | ⟨_, _, _, completer, _⟩ :: fields, h, he => by
    have ⟨hc, hf⟩ := List.forall_mem_cons.mp h
    cases List.mem_append.mp he
    case inl he => exact Completer.has_of_mem_scopes completer hc he
    case inr he => exact has_of_mem_fieldScopes fields hf he

theorem Completer.has_of_mem_scopes {above : List Ref} {e : List Ref × OutputPlan T} :
    (completer : Completer T LayerPlan Ref) →
    (∀ child, completer.findObject = some child → t.Has above child) →
    e ∈ completer.scopes above → t.Has e.fst e.snd
  | .leaf _, _, he         => absurd he List.not_mem_nil
  | .object _ child, h, he => ObjectPlan.has_of_mem_scopes child (h child rfl) he
  | .abstract _ _, _, he   => absurd he List.not_mem_nil
  | .list item, h, he      => Completer.has_of_mem_scopes item h he
  | .nonNull inner, h, he  => Completer.has_of_mem_scopes inner h he

end

theorem ObjectPlan.self_mem_scopes (above : List Ref) (op : OutputPlan T) :
    (above, op) ∈ op.scopes above := by
  cases op
  exact List.mem_cons_self

theorem Completer.child_mem_scopes (completer : Completer T LayerPlan Ref) {above : List Ref}
    {child : OutputPlan T} (h : completer.findObject = some child) :
    (above, child) ∈ completer.scopes above := by
  match completer with
  | .object _ _    => exact Option.some.inj h ▸ ObjectPlan.self_mem_scopes ..
  | .list item     => exact item.child_mem_scopes h
  | .nonNull inner => exact inner.child_mem_scopes h

theorem mem_fieldScopes_of_child {fields : List (FieldPlan T LayerPlan Ref)} {above : List Ref}
    {f : FieldPlan T LayerPlan Ref} {child : OutputPlan T} (hf : f ∈ fields)
    (hc : f.completer.findObject = some child) : (above, child) ∈ fieldScopes above fields := by
  induction fields
  case nil => exact absurd hf List.not_mem_nil
  case cons g fields hi =>
    cases g
    cases List.mem_cons.mp hf
    case inl hf => exact List.mem_append_left _ (Completer.child_mem_scopes _ (by rw [← hc, hf]))
    case inr hf => exact List.mem_append_right _ (hi hf)

section Child

variable {op child : OutputPlan T} {f : FieldPlan T LayerPlan Ref} {a : List Ref}

mutual

theorem ObjectPlan.mem_scopes_child (hf : f ∈ op.fields)
    (hc : f.completer.findObject = some child) {above : List Ref} :
    (s : OutputPlan T) → (a, op) ∈ s.scopes above →
    (op.layer.parentStep :: a, child) ∈ s.scopes above
  | ⟨fields, layer⟩, h => by
    refine List.mem_cons_of_mem _ ?_
    cases List.mem_cons.mp h
    case inl h =>
      have ⟨ha, ho⟩ := Prod.mk.inj h
      subst ha ho
      exact mem_fieldScopes_of_child hf hc
    case inr h => exact mem_fieldScopes_child hf hc fields h

theorem mem_fieldScopes_child (hf : f ∈ op.fields)
    (hc : f.completer.findObject = some child) {above : List Ref} :
    (fields : List (FieldPlan T LayerPlan Ref)) → (a, op) ∈ fieldScopes above fields →
    (op.layer.parentStep :: a, child) ∈ fieldScopes above fields
  | [], h                           => absurd h List.not_mem_nil
  | ⟨_, _, _, completer, _⟩ :: fields, h => by
    cases List.mem_append.mp h
    case inl h => exact List.mem_append_left _ (Completer.mem_scopes_child hf hc completer h)
    case inr h => exact List.mem_append_right _ (mem_fieldScopes_child hf hc fields h)

theorem Completer.mem_scopes_child (hf : f ∈ op.fields)
    (hc : f.completer.findObject = some child) {above : List Ref} :
    (completer : Completer T LayerPlan Ref) → (a, op) ∈ completer.scopes above →
    (op.layer.parentStep :: a, child) ∈ completer.scopes above
  | .leaf _, h         => absurd h List.not_mem_nil
  | .object _ child, h => ObjectPlan.mem_scopes_child hf hc child h
  | .abstract _ _, h   => absurd h List.not_mem_nil
  | .list item, h      => Completer.mem_scopes_child hf hc item h
  | .nonNull inner, h  => Completer.mem_scopes_child hf hc inner h

end

end Child

theorem ObjectPlan.mem_scopes_iff {above : List Ref} {op : OutputPlan T} :
    (above, op) ∈ t.scopes [] ↔ t.Has above op := by
  constructor
  case mp  => exact ObjectPlan.has_of_mem_scopes t .top
  case mpr =>
    intro h
    induction h
    case top             => exact self_mem_scopes [] t
    case child hf hc hi => exact mem_scopes_child hf hc t hi

end Scopes

namespace ObjectPlan

variable {p : Plan K} {t : OutputPlan T} {above : List Ref}

-- Populating a tree populates each of its layers in place.
theorem scopes_populateLayers : (t.populateLayers p).scopes above =
    (t.scopes above).map fun (above, op) => (above, op.populateLayers p) := by
  have h : (t.rebuild id (LayerPlan.populate p)).scopes (above.map id) = _ :=
    scopes_rebuild (fun _ _ => rfl) above t
  simpa [populateLayers] using h

@[simp]
theorem populateLayers_steps : (t.populateLayers p).fields.map (·.step) = t.fields.map (·.step) := by
  simp [populateLayers]

@[simp]
theorem populateLayers_layer :
    (t.populateLayers p).layer = t.layer.populate p (t.fields.map (·.step)) := by
  simp [populateLayers]

end ObjectPlan

end Grafast
