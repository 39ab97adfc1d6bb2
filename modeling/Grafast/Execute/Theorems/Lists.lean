import Grafast.Execute.Theorems.Entrywise

namespace Grafast

open Batch

variable {T L S I V : Type} [DecidableEq I]

variable {runs : LayerRuns L S I V} [Host V T]

section List

variable {item : Completer T L S} {label : String} {keys : Option (List I)}

theorem completed_eq_reference {k : Option (List I)} {xs : List (Seeded I V)}
    {bs : List (Completed V)}
    (h : xs.mapM (fun x => completeValue runs item label x.entry (x.seeds k)) = some bs) :
    bs = xs.map fun x => reference runs item label x.entry (x.seeds k) :=
  (mapM_eq_some_iff fun _ _ _ => completeValue_iff ..).mp h |>.right.symm

theorem completeValue_list {x : Seeded I V} :
    completeValue runs (.list item) label x.entry (x.seeds keys) =
      (listItems label x.entry).bind fun list =>
        ((SeededItems.items (x, list)).mapM fun y =>
          completeValue runs item label y.entry (y.seeds keys)).map (list.finish item.isNonNull) := by
  rw [completeValue]
  cases listItems label x.entry
  case none      => rfl
  case some list => cases list <;> simp [SeededItems.items, Items.entries, Items.finish]; rfl

-- The lists of a column are completed in two passes.
theorem mapM_list (xs : List (Seeded I V)) :
    (xs.mapM fun x => completeValue runs (.list item) label x.entry (x.seeds keys)) =
      (xs.mapM fun x => listItems label x.entry).bind fun lists =>
        ((xs.zip lists).mapM fun z => (SeededItems.items z).mapM fun x =>
          completeValue runs item label x.entry (x.seeds keys)).map
            (List.zipWith (·.finish item.isNonNull) lists) := by
  simp only [completeValue_list, mapM_bind]
  cases hl : xs.mapM fun x => listItems label x.entry
  case none       => rfl
  case some lists =>
    have hs : (xs.zip lists).map (·.snd) = lists := List.map_snd_zip (mapM_length hl).le
    simp only [Option.bind_some, mapM_map (g := fun z : SeededItems I V => z.snd.finish item.isNonNull)]
    refine congrArg (Option.map · _) (funext fun bs => ?_)
    conv => rhs; rw [← hs, List.zipWith_map_left]

theorem reportedErrors_list {z : SeededItems I V}
    (h : listItems label z.fst.entry = some z.snd) :
    reportedErrors runs (.list item) label z.fst.entry (z.fst.seeds keys) =
      z.items.flatMap fun y => Part.reported ⟨item.isNonNull,
        reference runs item label y.entry (y.seeds keys),
        reportedErrors runs item label y.entry (y.seeds keys)⟩ := by
  rw [reportedErrors, ← listItems_entries h, SeededItems.items, List.flatMap_map]
  rfl

end List

variable [DecidableEq T]

variable {runLayer : RunLayer L I V}

-- The completion of a column completes each of its values on its own. It raises if a step of a bucket does.
def Pointwise (runs : LayerRuns L S I V) (runLayer : RunLayer L I V) (c : Completer T L S) : Prop :=
  ∀ (label : String) (keys : Option (List I)) (xs : List (Seeded I V)),
    Buckets runs (runs.RunsApart runLayer) c xs →
      Guarded (Buckets runs (runs.Completes runLayer) c xs)
        (completeValues runs.toLayers runLayer c label (xs.map (·.entry)) (bridgeOf keys xs))
        (xs.mapM fun x => completeValue runs c label x.entry (x.seeds keys))
        (xs.flatMap fun x => reportedErrors runs c label x.entry (x.seeds keys))

theorem Pointwise.leaf {leafType : T} : Pointwise runs runLayer (.leaf leafType) := by
  intro label keys xs _
  rw [completeValues, List.mapM_map]
  refine Yields.lift.guarded.congr ?_ (fun _ => by simp only [completeValue]; rfl) fun _ _ => by simp [reportedErrors]
  simp only [Buckets]

theorem Pointwise.nonNull {inner : Completer T L S} (h : Pointwise runs runLayer inner) :
    Pointwise runs runLayer (.nonNull inner) := by
  intro label keys xs hb
  rw [completeValues]
  refine (h label keys xs hb).map.congr Iff.rfl (fun _ => ?_) fun _ _ => by
    simp only [reportedErrors]
    exact .refl _
  simp only [completeValue, mapM_map]
  exact congrArg (Option.map · _) (funext fun bs => List.zipWith_map_left)

omit [DecidableEq I] [DecidableEq T] in
-- The items of a column of lists.
theorem flatMap_items {label : String} {zs : List (SeededItems I V)}
    (hi : ∀ z ∈ zs, listItems label z.fst.entry = some z.snd) :
    (zs.map (·.fst)).flatMap (fun x => (iteratedEntries x.entry).map (⟨·, x.seed⟩)) =
      zs.flatMap SeededItems.items := by
  rw [List.flatMap_map]
  exact List.flatMap_congr fun z hz => by rw [← listItems_entries (hi z hz), SeededItems.items]

theorem Pointwise.list {item : Completer T L S} (h : Pointwise runs runLayer item) :
    Pointwise runs runLayer (.list item) := by
  intro label keys xs hb
  rw [mapM_list, completeValues, flattenFrom_eq, List.mapM_map]
  simp only [Function.comp_def]
  rw [Buckets] at hb ⊢
  cases hl : xs.mapM fun x => listItems label x.entry
  case none       => exact .fail fun _ => rfl
  case some lists =>
    have hx : (xs.zip lists).map (·.fst) = xs := List.map_fst_zip (mapM_length hl).ge
    have hs : (xs.zip lists).map (·.snd) = lists := List.map_snd_zip (mapM_length hl).le
    have hi := mapM_map_fst hl
    rw [Option.bind_some]
    generalize xs.zip lists = zs at hx hs hi
    subst hx hs
    have hg : Bridge.gather (bridgeOf keys (zs.map (·.fst))) (ownersFrom 0 (zs.map (·.snd))) =
        some (bridgeOf keys (zs.flatMap SeededItems.items)) :=
      bridge_gather fun id => by simpa [Function.comp_def] using gather_ownersFrom (b := [])
    rw [flatMap_items hi] at hb ⊢
    have hc := h label keys (zs.flatMap SeededItems.items) hb
    rw [← flatMap_entries, mapM_flatMap] at hc
    simp only [Option.map_some]
    refine .lift_bind ?_
    simp only [hg]
    refine .lift_bind ?_
    cases hm : zs.mapM fun z => (SeededItems.items z).mapM fun x =>
      completeValue runs item label x.entry (x.seeds keys)
    case none     =>
      rw [hm] at hc
      exact hc.fail_bind
    case some bss =>
      rw [hm] at hc
      have hf := mapM_forall₂ hm
      have hl : List.Forall₂ (fun (list : Items V) bs => bs.length = list.length)
          (zs.map (·.snd)) bss := by
        rw [List.forall₂_map_left_iff]
        refine hf.imp fun z bs hb => ?_
        rw [mapM_length hb, Items.length_eq, SeededItems.items, List.length_map]
      have hr : bss = zs.map fun z => (SeededItems.items z).map fun y =>
          reference runs item label y.entry (y.seeds keys) := by
        refine List.ext_getElem (by simpa using mapM_length hm) fun k hk hk' => ?_
        have hz := hf.get (i := k) (by simpa using hk') hk
        simpa using completed_eq_reference hz
      refine (hc.bind_yields
        (s := fun _ => some (List.zipWith (·.finish item.isNonNull) (zs.map (·.snd)) bss))
        (z := (List.zipWith (·.caught item.isNonNull) (zs.map (·.snd)) bss).flatten)
        fun completed _ h => ?_).congr Iff.rfl (fun _ => rfl) fun _ _ => ?_
      · obtain rfl := Option.some.inj h
        exact collectSpans_yields (b := []) hl
      · subst hr
        simp only [List.zipWith_map, List.zipWith_self, caught_eq, ← List.flatMap_def,
          List.flatMap_map]
        rw [← List.flatMap_assoc]
        refine (List.flatMap_append_perm _ _ _).trans ?_
        rw [List.flatMap_assoc]
        refine .of_eq (List.flatMap_congr fun z hz => ?_)
        exact (reportedErrors_list (hi z hz)).symm

end Grafast
