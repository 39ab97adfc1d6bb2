import Grafast.Execute.Theorems.Heads

namespace Grafast

open Batch Reported

section StreamItem

variable {T L S I V : Type} [DecidableEq I] {runs : LayerRuns L S I V} [Host V T] [DecidableEq T]

-- One item is completed as its column of one value.
theorem completeItem_run (runs : LayerRuns L S I V) (c : Completer T L S) (label : String)
    (keys : Option (List I)) (x : Seeded I V) :
    Yields (completeValues runs.toLayers runs.pointwise c label [x.entry] (bridgeOf keys [x]))
      ((value? (completeItem runs c label x.entry (x.seeds keys))).map ([·]))
      (caught (completeItem runs c label x.entry (x.seeds keys))) := by
  refine (completeValues_itemwise c label keys [x]).congr ?_ fun _ => .of_eq ?_
  · rw [mapM_cons]
    cases completeItem runs c label x.entry (x.seeds keys) <;> rfl
  · rw [List.flatMap_cons, List.flatMap_nil, List.append_nil]

-- What the stream reports of an item. A violation is reported without what has been caught below it.
def Reported.streamed (itemIsNonNull : Bool) (r : Reported V (Completed V)) :
    Reported V (Option (Data V)) :=
  ⟨(r.inline itemIsNonNull).value, match r.value with
    | .value _      => r.errors
    | .bubble error => [error]⟩

theorem streamItem_report {m : Exec V (List (Completed V))} {r : Option (Reported V (Completed V))}
    (itemIsNonNull : Bool) (h : Yields m ((value? r).map ([·])) (caught r)) :
    Agree (streamItem itemIsNonNull m).report? (r.map (·.streamed itemIsNonNull)) := by
  unfold streamItem
  cases r
  case none =>
    have hr : m.run ⟨[], []⟩ = none := Option.map_eq_none_iff.mp (h.result ⟨[], []⟩)
    rw [hr]
    exact ⟨rfl, .refl _⟩
  case some r =>
    obtain ⟨⟨bs, context⟩, hr, hb⟩ := Option.map_eq_some_iff.mp (h.result ⟨[], []⟩)
    obtain rfl : bs = [r.value] := hb
    have he : context.errors.Perm r.errors := h.errors hr
    rw [hr]
    obtain ⟨value, errors⟩ := r
    cases value
    case value data   => exact ⟨rfl, he⟩
    case bubble error => cases itemIsNonNull <;> exact ⟨rfl, .refl _⟩

theorem streamed_agree_iff {r : Option (Reported V (Completed V))} (itemIsNonNull : Bool) :
    Agree (r.map (·.streamed itemIsNonNull)) (r.map (·.inline itemIsNonNull)) ↔
      ∀ error errors, r = some ⟨.bubble error, errors⟩ → errors = [] := by
  cases r
  case none   => exact ⟨fun _ _ _ h => (nomatch h), fun _ => ⟨rfl, .refl _⟩⟩
  case some r =>
    obtain ⟨value, errors⟩ := r
    cases value
    case value data =>
      exact ⟨fun _ _ _ h => (nomatch h), fun _ => ⟨rfl, .refl _⟩⟩
    case bubble error =>
      constructor
      case mp =>
        intro ⟨_, he⟩ _ _ h
        cases h
        have he : [error].length = (errors ++ [error]).length := he.length_eq
        exact List.length_eq_zero_iff.mp (by simpa using he)
      case mpr =>
        intro h
        obtain rfl := h error errors rfl
        exact ⟨rfl, .refl _⟩

-- Whatever column an item of a list is completed in, it comes to the same data and errors. Its stream
-- reports these unless a violation of the item leaves something behind that has been caught below it.
theorem streamItem_inline_iff (c : Completer T L S) (label : String) (keys : Option (List I))
    (xs : List (Seeded I V)) :
    Yields (completeValues runs.toLayers runs.pointwise c label (xs.map (·.entry)) (bridgeOf keys xs))
        (value? (Reported.all (fun x => completeItem runs c label x.entry (x.seeds keys)) xs))
        (caught (Reported.all (fun x => completeItem runs c label x.entry (x.seeds keys)) xs)) ∧
      ∀ x ∈ xs,
        Agree (streamItem c.isNonNull
              (completeValues runs.toLayers runs.pointwise c label [x.entry] (bridgeOf keys [x]))).report?
            ((completeItem runs c label x.entry (x.seeds keys)).map (·.inline c.isNonNull)) ↔
          BubblesAlone runs c label x.entry (x.seeds keys) := by
  refine ⟨(completeValues_itemwise c label keys xs).all, fun x _ => ?_⟩
  have hr := completeItem_run runs c label keys x
  have hs := streamItem_report c.isNonNull hr
  unfold BubblesAlone
  rw [← streamed_agree_iff c.isNonNull]
  exact ⟨fun h => ⟨hs.left.symm.trans h.left, hs.right.symm.trans h.right⟩,
    fun h => ⟨hs.left.trans h.left, hs.right.trans h.right⟩⟩

end StreamItem

namespace Feed

-- A post whose author raises, and which has no title.
inductive Value
  | post
  | null
  | valueError

instance : Host Value Unit where
  isException
    | .valueError => true
    | _           => false
  isNone
    | .null => true
    | _     => false
  isUndefined _ := false
  iterate _ := none
  serialize _ value := .ok value
  isTypeOf _ := none
  resolveType _ _ _ := .error .valueError
  ensureValidRuntimeType _ _ _ _ := .error .valueError
  isLeafError _ := true
  errorPath _ := none
  typeName _ := "String"
  inspect _ := "value"

-- The step 0 yields the author of a post, and the step 1 its title.
def runs : LayerRuns Unit Nat Nat Value where
  stepId := id
  hoistedOutIds _ := []
  columns _ _ := true
  value
    | _, _, _, _, 0 => .valueError
    | _, _, _, _, _ => .null
  streaming := true

-- The completer of a post with the fields `author: String` and `title: String!`.
def post : Completer Unit Unit Nat :=
  .object () ⟨[
    ⟨"author", "Post.author", 0, .leaf (), none⟩,
    ⟨"title", "Post.title", 1, .nonNull (.leaf ()), none⟩], ()⟩

def item : Seeded Nat Value :=
  ⟨⟨.post, [.name "posts", .index 0], [.name "posts"]⟩, fun _ => .null⟩

-- Inline, the list reports that the author raises and that there is no title. The stream leaves out the
-- first error.
theorem not_inline : ¬Agree
    (streamItem post.isNonNull
      (completeValues runs.toLayers runs.pointwise post "Query.posts" [item.entry] (bridgeOf none [item]))).report?
    ((completeItem runs post "Query.posts" item.entry (item.seeds none)).map (·.inline post.isNonNull)) := by
  intro h
  have hn : 1 = 2 := h.right.length_eq
  exact nomatch hn

end Feed

end Grafast
