import Grafast.Execute.Theorems.Completion

namespace Grafast

section Sublist

variable {α β : Type} {a a' b b' : List α}

theorem append_eq_iff (h : a.Sublist a') (h' : b.Sublist b') : a ++ b = a' ++ b' ↔ a = a' ∧ b = b' := by
  constructor
  case mp =>
    intro he
    have hl := congrArg List.length he
    have ha := h.length_le
    have hb := h'.length_le
    rw [List.length_append, List.length_append] at hl
    exact ⟨h.eq_of_length (by omega), h'.eq_of_length (by omega)⟩
  case mpr => exact fun ⟨ha, hb⟩ => ha ▸ hb ▸ rfl

theorem flatMap_sublist {f g : β → List α} {l : List β} (h : ∀ b ∈ l, (f b).Sublist (g b)) :
    (l.flatMap f).Sublist (l.flatMap g) := by
  induction l
  case nil         => exact .slnil
  case cons b l hi =>
    rw [List.flatMap_cons, List.flatMap_cons]
    exact (h b (.head _)).append (hi fun b hb => h b (.tail _ hb))

theorem flatMap_eq_iff {f g : β → List α} {l : List β} (h : ∀ b ∈ l, (f b).Sublist (g b)) :
    l.flatMap f = l.flatMap g ↔ ∀ b ∈ l, f b = g b := by
  induction l
  case nil         => simp
  case cons b l hi =>
    have ht (c) (hc : c ∈ l) := h c (.tail _ hc)
    rw [List.flatMap_cons, List.flatMap_cons, append_eq_iff (h b (.head _)) (flatMap_sublist ht), hi ht,
      List.forall_mem_cons]

end Sublist

section Errors

variable {T L S I V : Type}

section Part

variable {isNonNull : Bool} {completed : Completed V} {es es' : List (LocatedError V)}

theorem Part.reported_sublist (h : es.Sublist es') :
    (Part.reported ⟨isNonNull, completed, es⟩).Sublist (Part.reported ⟨isNonNull, completed, es'⟩) :=
  h.append (.refl _)

theorem Part.reported_eq_iff :
    Part.reported ⟨isNonNull, completed, es⟩ = Part.reported ⟨isNonNull, completed, es'⟩ ↔ es = es' :=
  List.append_left_inj _

end Part

section Items

variable {isNonNull : Bool} {c : Entry V → Completed V} {f g : Entry V → List (LocatedError V)}
  {l : List (Entry V)}

-- The reference reports a part of what is reported for all items.
theorem partErrors_sublist (h : ∀ i ∈ l, (f i).Sublist (g i)) :
    (partErrors (l.map fun i => ⟨isNonNull, c i, f i⟩)).Sublist
      (l.flatMap fun i => Part.reported ⟨isNonNull, c i, g i⟩) := by
  induction l
  case nil         => exact .slnil
  case cons i l hi =>
    rw [List.map_cons, partErrors, List.flatMap_cons]
    refine (Part.reported_sublist (h i (.head _))).append ?_
    split
    · exact List.nil_sublist _
    · exact hi fun i hi => h i (.tail _ hi)

theorem partErrors_eq_iff (h : ∀ i ∈ l, (f i).Sublist (g i)) :
    partErrors (l.map fun i => ⟨isNonNull, c i, f i⟩) =
        (l.flatMap fun i => Part.reported ⟨isNonNull, c i, g i⟩) ↔
      (∀ i ∈ l, f i = g i) ∧
        (isNonNull → l.Pairwise fun i j => (c i).bubble?.isSome → f j = []) := by
  induction l
  case nil         => simp [partErrors]
  case cons i l hi =>
    have ht (j) (hj : j ∈ l) := h j (.tail _ hj)
    rw [List.map_cons, partErrors, List.flatMap_cons, append_eq_iff
      (Part.reported_sublist (h i (.head _))) (by split; exacts [List.nil_sublist _, partErrors_sublist ht]),
      Part.reported_eq_iff, List.forall_mem_cons, List.pairwise_cons]
    cases isNonNull
    case false =>
      simp only [Part.bubble?, Bool.false_eq_true, if_false, Option.isSome_none, false_implies,
        and_true] at hi ⊢
      rw [hi ht]
    case true  =>
      simp only [Part.bubble?, if_true, true_implies] at hi ⊢
      cases hb : (c i).bubble?
      case none => simp [hi ht, and_assoc]
      case some error =>
        -- the items after the violation are not completed by the reference
        simp only [Option.isSome_some, if_true, true_implies, eq_comm (a := ([] : List (LocatedError V))),
          List.flatMap_eq_nil_iff, Part.reported, List.append_nil]
        constructor
        case mp =>
          rintro ⟨he, hn⟩
          have hf (j) (hj : j ∈ l) : f j = [] := List.sublist_nil.mp (hn j hj ▸ ht j hj)
          refine ⟨⟨he, fun j hj => (hf j hj).trans (hn j hj).symm⟩, hf, ?_⟩
          exact List.pairwise_of_forall_mem_list fun _ _ j hj _ => hf j hj
        case mpr =>
          rintro ⟨⟨he, hg⟩, hn, _⟩
          exact ⟨he, fun j hj => (hg j hj).symm.trans (hn j hj)⟩

end Items

variable [DecidableEq I] {runs : LayerRuns L S I V} [Host V T]

theorem referencePart_bubble? {f : FieldPlan T L S} {e : Entry V} {value : I → V} :
    (referencePart runs f e value).bubble? = (referenceField runs f e value).bubble? := by
  obtain ⟨_, _, _, _, _⟩ := f
  rfl

mutual

-- What the reference reports is reported, if the code does not raise.
theorem referenceErrors_sublist : (c : Completer T L S) → (label : String) → (e : Entry V) →
    (seeds : I → Option V) →
    (referenceErrors runs c label e seeds).Sublist (reportedErrors runs c label e seeds)
  | .leaf _, _, _, _ => by
    rw [referenceErrors, reportedErrors]
  | .nonNull inner, label, e, seeds => by
    rw [referenceErrors, reportedErrors]
    exact referenceErrors_sublist inner label e seeds
  | .list item, label, e, seeds => by
    rw [referenceErrors, reportedErrors]
    exact partErrors_sublist fun i _ => referenceErrors_sublist item label i seeds
  | .object objectType child, _, e, seeds => by
    rw [referenceErrors, reportedErrors]
    split
    · exact referenceObjectErrors_sublist child e seeds
    · exact .refl _
  | .abstract abstractType plans, _, e, seeds => by
    rw [referenceErrors, reportedErrors]
    cases groupType abstractType e
    case none            => exact .slnil
    case some objectType => exact referenceObjectErrors_sublist (plans objectType) e seeds

theorem referenceObjectErrors_sublist : (op : ObjectPlan T L S) → (e : Entry V) →
    (seeds : I → Option V) →
    (referenceObjectErrors runs op e seeds).Sublist (reportedObjectErrors runs op e seeds)
  | ⟨fields, layer⟩, e, seeds => by
    rw [referenceObjectErrors, reportedObjectErrors]
    exact referenceParts_sublist fields e _

theorem referenceParts_sublist : (fs : List (FieldPlan T L S)) → (e : Entry V) → (value : I → V) →
    (partErrors (referenceParts runs fs e value)).Sublist (partErrors (reportedParts runs fs e value))
  | [],      _, _     => .slnil
  | f :: fs, e, value => by
    rw [referenceParts, reportedParts, partErrors, partErrors, reportedPart_bubble?,
      ← referencePart_bubble?]
    refine (referencePart_sublist f e value).append ?_
    split
    · exact .slnil
    · exact referenceParts_sublist fs e value

theorem referencePart_sublist : (f : FieldPlan T L S) → (e : Entry V) → (value : I → V) →
    (referencePart runs f e value).reported.Sublist (reportedPart runs f e value).reported
  | ⟨_, label, _, completer, _⟩, _, _ =>
    Part.reported_sublist (referenceErrors_sublist completer label _ _)

end

mutual

-- A value is quiet if nothing else is reported for it.
theorem quiet_iff : (c : Completer T L S) → (label : String) → (e : Entry V) →
    (seeds : I → Option V) →
    (Quiet runs c label e seeds ↔
      referenceErrors runs c label e seeds = reportedErrors runs c label e seeds)
  | .leaf _, _, _, _ => by simp [Quiet, referenceErrors, reportedErrors]
  | .nonNull inner, label, e, seeds => by
    rw [Quiet, referenceErrors, reportedErrors]
    exact quiet_iff inner label e seeds
  | .list item, label, e, seeds => by
    rw [Quiet, referenceErrors, reportedErrors,
      partErrors_eq_iff fun i _ => referenceErrors_sublist item label i seeds]
    simp only [quiet_iff item label _ seeds]
  | .object objectType child, _, e, seeds => by
    rw [Quiet, referenceErrors, reportedErrors, quietObject_iff child e seeds]
    cases isObjectOf objectType e <;> simp
  | .abstract abstractType plans, _, e, seeds => by
    rw [Quiet, referenceErrors, reportedErrors]
    cases groupType abstractType e
    case none            => simp
    case some objectType => simp [quietObject_iff (plans objectType) e seeds]

theorem quietObject_iff : (op : ObjectPlan T L S) → (e : Entry V) → (seeds : I → Option V) →
    (QuietObject runs op e seeds ↔
      referenceObjectErrors runs op e seeds = reportedObjectErrors runs op e seeds)
  | ⟨fields, layer⟩, e, seeds => by
    rw [QuietObject, referenceObjectErrors, reportedObjectErrors]
    exact quietFields_iff fields e _

theorem quietFields_iff : (fs : List (FieldPlan T L S)) → (e : Entry V) → (value : I → V) →
    (QuietFields runs fs e value ↔
      partErrors (referenceParts runs fs e value) = partErrors (reportedParts runs fs e value))
  | [],      _, _     => by simp [QuietFields, referenceParts, reportedParts]
  | f :: fs, e, value => by
    rw [QuietFields, referenceParts, reportedParts, partErrors, partErrors, reportedPart_bubble?,
      referencePart_bubble?, quietField_iff f e value, quietFields_iff fs e value]
    cases (referenceField runs f e value).bubble?
    case some error => simp
    case none       =>
      simp only [true_implies, Option.isSome_none, Bool.false_eq_true, if_false]
      exact (append_eq_iff (referencePart_sublist f e value) (referenceParts_sublist fs e value)).symm

theorem quietField_iff : (f : FieldPlan T L S) → (e : Entry V) → (value : I → V) →
    (QuietField runs f e value ↔
      (referencePart runs f e value).reported = (reportedPart runs f e value).reported)
  | ⟨_, label, _, completer, _⟩, e, value => by
    rw [QuietField, referencePart, reportedPart, Part.reported_eq_iff]
    exact quiet_iff completer label _ _

end

variable [DecidableEq T]

-- Where the layers give each parent of a bucket what they give it on its own, the errors of the completion of a
-- column are those of the reference for its values, up to their order and whatever is read of them, unless
-- something raises or is reported after an item that nulls its list.
theorem completeValues_errors_iff (hs : runs.streaming = false) {α : Type} (runLayer : RunLayer L I V)
    (c : Completer T L S) (label : String) (keys : Option (List I)) (xs : List (Seeded I V))
    (read : LocatedError V → α) (ha : Buckets runs (runs.RunsApart runLayer) c xs) :
    (∃ r context, (completeValues runs.toLayers runLayer c label (xs.map (·.entry)) (bridgeOf keys xs)).run ⟨[], []⟩ =
        some (r, context) ∧ (context.errors.map read).Perm
          ((xs.flatMap fun x => referenceErrors runs c label x.entry (x.seeds keys)).map read)) ↔
      Buckets runs (runs.Completes runLayer) c xs ∧
        ∀ x ∈ xs, Safe runs c label x.entry (x.seeds keys) ∧ Quiet runs c label x.entry (x.seeds keys) := by
  have hg := completeValues_pointwise hs c label keys xs ha
  by_cases hc : Buckets runs (runs.Completes runLayer) c xs
  case neg =>
    refine iff_of_false (fun ⟨r, context, hr, _⟩ => ?_) fun h => hc h.left
    rw [hg.raises hc] at hr
    cases hr
  case pos =>
    have hp := hg.yields hc
    rw [and_iff_right hc]
    constructor
    case mp =>
      intro ⟨r, context, hr, he⟩
      have hm := hp.result ⟨[], []⟩
      rw [hr, Option.map_some, eq_comm,
        Batch.mapM_eq_some_iff fun x _ r => completeValue_iff c label x.entry (x.seeds keys) r] at hm
      have hs : ∀ x ∈ xs, (referenceErrors runs c label x.entry (x.seeds keys)).Sublist
          (reportedErrors runs c label x.entry (x.seeds keys)) :=
        fun x _ => referenceErrors_sublist c label x.entry (x.seeds keys)
      have he := he.length_eq
      rw [List.length_map, List.length_map, (hp.errors hr).length_eq, List.nil_append] at he
      have hq := (flatMap_eq_iff hs).mp ((flatMap_sublist hs).eq_of_length he.symm)
      exact fun x hx => ⟨hm.left x hx, (quiet_iff ..).mpr (hq x hx)⟩
    case mpr =>
      intro h
      have hr := hp.result ⟨[], []⟩
      rw [(Batch.mapM_eq_some_iff fun x _ r => completeValue_iff c label x.entry (x.seeds keys) r).mpr
        ⟨fun x hx => (h x hx).left, rfl⟩] at hr
      obtain ⟨⟨r, context⟩, hr, _⟩ := Option.map_eq_some_iff.mp hr
      refine ⟨r, context, hr, ((hp.errors hr).trans (.of_eq ?_)).map read⟩
      exact List.flatMap_congr fun x hx => ((quiet_iff ..).mp (h x hx).right).symm

end Errors

namespace Badge

theorem quiet_badge (label : String) (n : Nat) (path info : Path) (seeds : Nat → Option Value) :
    Quiet runs badge label ⟨.badge n, path, info⟩ seeds :=
  fun _ => ⟨trivial, fun _ => ⟨trivial, fun _ => trivial⟩⟩

-- The label of the last badge of the first list raises, and the first badge of the second list nulls it.
theorem reports : ∃ r context, (completeValues runs.toLayers runLayer (.list badge) "Query.badges"
    ((column [.badges [2, 1], .badges [0, 3]]).map (·.entry)) none).run ⟨[], []⟩ = some (r, context) ∧
      (context.errors.map (·.path)).Perm
        (((column [.badges [2, 1], .badges [0, 3]]).flatMap fun x =>
          referenceErrors runs (.list badge) "Query.badges" x.entry (x.seeds none)).map (·.path)) := by
  refine (completeValues_errors_iff rfl runLayer (.list badge) "Query.badges" none _ (·.path)
    (buckets_of_forall runsApart _ _)).mpr ⟨fun _ => ⟨rfl, trivial, trivial, trivial⟩, fun x hx => ?_⟩
  simp only [column, List.map_cons, List.map_nil, List.mem_cons, List.not_mem_nil, or_false] at hx
  rcases hx with rfl | rfl
  all_goals
    refine ⟨safe_badges, fun i hi => ?_, fun _ => ?_⟩
    · obtain ⟨n, path, rfl⟩ := mem_badges hi
      exact quiet_badge _ n _ _ _
    · refine .cons (fun j hj => ?_) (List.pairwise_singleton _ _)
      obtain rfl := List.mem_singleton.mp hj
      first | exact fun h => absurd h Bool.false_ne_true | exact fun _ => rfl

-- The badge 0 nulls its list, and the label of the badge after it is reported nevertheless.
theorem not_reports : ¬∃ r context, (completeValues runs.toLayers runLayer (.list badge) "Query.badges"
    ((column [.badges [0, 1]]).map (·.entry)) none).run ⟨[], []⟩ = some (r, context) ∧
      (context.errors.map (·.path)).Perm
        (((column [.badges [0, 1]]).flatMap fun x =>
          referenceErrors runs (.list badge) "Query.badges" x.entry (x.seeds none)).map (·.path)) := by
  intro ⟨r, context, hr, he⟩
  have hc : some 1 = some context.errors.length :=
    congrArg (Option.map fun x : List (Completed Value) × Context Value => x.snd.errors.length) hr
  have he : (context.errors.map (·.path)).length = 0 := he.length_eq
  rw [List.length_map, ← Option.some.inj hc] at he
  cases he

end Badge

end Grafast
