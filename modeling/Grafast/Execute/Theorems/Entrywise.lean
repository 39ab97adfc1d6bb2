import Grafast.Execute.Theorems.Reference

namespace Grafast

open Batch

variable {T L S I V α β : Type}

-- The result of a computation and the errors that it reports, which are the same over every context.
structure Yields (m : Exec V α) (r : Option α) (reported : List (LocatedError V)) : Prop where
  result : ∀ context, (m.run context).map (·.fst) = r
  errors : ∀ {context x}, m.run context = some x → x.snd.errors.Perm (context.errors ++ reported)

namespace Yields

variable {m : Exec V α} {r : Option α} {w z : List (LocatedError V)}

theorem pure {a : α} : Yields (V := V) (Pure.pure a) (some a) [] where
  result _ := rfl
  errors h := by
    obtain rfl := Option.some.inj h
    rw [List.append_nil]

theorem lift : Yields (V := V) (liftM r) r [] where
  result _ := by cases r <;> rfl
  errors {context x} h := by
    cases r
    case none   => exact nomatch h
    case some a =>
      obtain rfl : (a, context) = x := Option.some.inj h
      rw [List.append_nil]

theorem addErrors {errors : List (LocatedError V)} :
    Yields (Grafast.addErrors errors) (some ()) errors where
  result _ := rfl
  errors h := by
    obtain rfl := Option.some.inj h
    exact .refl _

theorem fail (h : ∀ context, m.run context = none) : Yields m none w where
  result context := by rw [h, Option.map_none]
  errors {context x} hx := by
    rw [h] at hx
    cases hx

theorem congr {s : Option α} (h : Yields m r w) (hr : r = s) (he : r.isSome → w.Perm z) :
    Yields m s z where
  result context := (h.result context).trans hr
  errors {context x} hx := by
    have hr : r.isSome := by rw [← h.result context, hx]; rfl
    exact (h.errors hx).trans ((he hr).append_left _)

theorem bind {k : α → Exec V β} {s : α → Option β} (h : Yields m r w)
    (hk : ∀ a, r = some a → Yields (k a) (s a) z) : Yields (m >>= k) (r.bind s) (w ++ z) := by
  have hr {context a context'} (hm : m.run context = some (a, context')) : r = some a := by
    rw [← h.result context, hm]
    rfl
  refine ⟨fun context => ?_, fun {context x} hx => ?_⟩
  · rw [StateT.run_bind, Option.bind_eq_bind]
    cases hm : m.run context
    case none   => simp [← h.result context, hm]
    case some x => simpa [hr hm] using (hk x.fst (hr hm)).result x.snd
  · simp only [StateT.run_bind, Option.bind_eq_bind, Option.bind_eq_some_iff] at hx
    obtain ⟨⟨a, context'⟩, hm, hx⟩ := hx
    have he := ((hk a (hr hm)).errors hx).trans ((h.errors hm).append_right _)
    rwa [List.append_assoc] at he

theorem fail_bind {k : α → Exec V β} (h : Yields m none w) : Yields (m >>= k) none z := by
  refine fail fun context => ?_
  have h := h.result context
  rw [Option.map_eq_none_iff] at h
  rw [StateT.run_bind, h]
  rfl

-- A part of a computation that does not fail and reports nothing.
theorem lift_bind {a : α} {k : α → Exec V β} {s : Option β} (h : Yields (k a) s w) :
    Yields (liftM (some a) >>= k) s w :=
  h

theorem map {f : α → β} (h : Yields m r w) :
    Yields (m >>= fun a => Pure.pure (f a)) (r.map f) w := by
  rw [Option.map_eq_bind, ← List.append_nil w]
  exact h.bind fun _ _ => .pure

theorem mapM {f : α → Exec V β} {g : α → Option β} {e : α → List (LocatedError V)} {l : List α}
    (h : ∀ a ∈ l, Yields (f a) (g a) (e a)) : Yields (l.mapM f) (l.mapM g) (l.flatMap e) := by
  induction l
  case nil         => exact .pure
  case cons a l hi =>
    rw [List.mapM_cons, List.mapM_cons, List.flatMap_cons]
    refine (h a (.head _)).bind fun b _ => ?_
    have hl := (hi fun a ha => h a (.tail _ ha)).map (f := (b :: ·))
    rwa [Option.map_eq_bind] at hl

theorem lift_mapM {f : α → Option β} {l : List α} :
    Yields (V := V) (l.mapM fun a => liftM (f a)) (l.mapM f) [] := by
  have h := mapM (V := V) (l := l) fun a _ => lift (r := f a)
  rwa [List.flatMap_eq_nil_iff.mpr fun _ _ => rfl] at h

end Yields

-- A computation that yields a result if a condition holds, and raises if it does not.
structure Guarded (p : Prop) (m : Exec V α) (r : Option α) (reported : List (LocatedError V)) : Prop where
  yields : p → Yields m r reported
  raises : ¬p → ∀ context, m.run context = none

namespace Guarded

variable {p q : Prop} {m : Exec V α} {r : Option α} {w z : List (LocatedError V)}

theorem fail (h : ∀ context, m.run context = none) : Guarded p m none w where
  yields _ := .fail h
  raises _ := h

theorem congr {s : Option α} (h : Guarded p m r w) (hp : q ↔ p) (hr : p → r = s)
    (he : p → r.isSome → w.Perm z) : Guarded q m s z where
  yields hq := (h.yields (hp.mp hq)).congr (hr (hp.mp hq)) (he (hp.mp hq))
  raises hq := h.raises (mt hp.mpr hq)

theorem bind {k : α → Exec V β} {s : α → Option β} (h : Guarded p m r w)
    (hk : ∀ a, p → r = some a → Guarded q (k a) (s a) z) :
    Guarded (p ∧ q) (m >>= k) (r.bind s) (w ++ z) where
  yields hpq := (h.yields hpq.left).bind fun a ha => (hk a hpq.left ha).yields hpq.right
  raises hn context := by
    rw [StateT.run_bind, Option.bind_eq_bind, Option.bind_eq_none_iff]
    intro x hx
    by_cases hp : p
    case neg =>
      rw [h.raises hp] at hx
      cases hx
    case pos =>
      have hr : r = some x.fst := by
        rw [← (h.yields hp).result context, hx]
        rfl
      exact (hk x.fst hp hr).raises (fun hq => hn ⟨hp, hq⟩) x.snd

theorem bind_yields {k : α → Exec V β} {s : α → Option β} (h : Guarded p m r w)
    (hk : ∀ a, p → r = some a → Yields (k a) (s a) z) : Guarded p (m >>= k) (r.bind s) (w ++ z) :=
  (h.bind (q := True) fun a hp ha => ⟨fun _ => hk a hp ha, fun hn => absurd trivial hn⟩).congr
    (and_iff_left trivial).symm (fun _ => rfl) fun _ _ => .refl _

theorem fail_bind {k : α → Exec V β} (h : Guarded p m none w) : Guarded q (m >>= k) none z := by
  refine fail fun context => ?_
  have hm : m.run context = none := by
    by_cases hp : p
    case neg => exact h.raises hp context
    case pos => exact Option.map_eq_none_iff.mp ((h.yields hp).result context)
  rw [StateT.run_bind, hm]
  rfl

theorem lift_bind {a : α} {k : α → Exec V β} {s : Option β} (h : Guarded p (k a) s w) :
    Guarded p (liftM (some a) >>= k) s w :=
  h

theorem map {f : α → β} (h : Guarded p m r w) :
    Guarded p (m >>= fun a => Pure.pure (f a)) (r.map f) w where
  yields hp          := (h.yields hp).map
  raises hn context := by rw [StateT.run_bind, h.raises hn]; rfl

end Guarded

theorem Yields.guarded {m : Exec V α} {r : Option α} {w : List (LocatedError V)} (h : Yields m r w) :
    Guarded True m r w :=
  ⟨fun _ => h, fun hn => absurd trivial hn⟩

theorem bridge_gather {keys : Option (List I)} {xs ys : List (Seeded I V)} {places : List Nat}
    (h : ∀ id, gather (xs.map (·.seed id)) places = some (ys.map (·.seed id))) :
    Bridge.gather (bridgeOf keys xs) places = some (bridgeOf keys ys) := by
  cases keys
  case none     => rfl
  case some ids =>
    have hm : (ids.mapM fun id => do return (id, ← gather (xs.map (·.seed id)) places)) =
        some (ids.map fun id => (id, ys.map (·.seed id))) :=
      mapM_eq_some_map_iff.mpr fun id _ => by simp [h]
    simp only [Bridge.gather, bridgeOf, Option.map_some, List.mapM_map, Function.comp_def]
    rw [hm]
    rfl

section List

variable [Host V T]

-- The items of a list, each with what is seeded for its list.
def Items.seeded (seed : I → V) : Items V → List (Seeded I V)
  | .items entries => entries.map (⟨·, seed⟩)
  | _              => []

-- What a list makes of its completed items.
def Items.finish (itemIsNonNull : Bool) : Items V → List (Completed V) → Completed V
  | .invalid error, _         => .bubble error
  | .null,          _         => .value .null
  | .items _,       completed => (collectItems itemIsNonNull completed [] []).fst

def Items.caught (itemIsNonNull : Bool) : Items V → List (Completed V) → List (LocatedError V)
  | .items _, completed => (collectItems itemIsNonNull completed [] []).snd
  | _,        _         => []

def Items.span (start : Nat) : Items V → Span V
  | .invalid error => .invalid error
  | .null          => .null
  | .items entries => .items start entries.length

def Items.length : Items V → Nat
  | .items entries => entries.length
  | _              => 0

def ownersFrom : Nat → List (Items V) → List Nat
  | _, []           => []
  | i, list :: rest => List.replicate list.length i ++ ownersFrom (i + 1) rest

def spansFrom : Nat → List (Items V) → List (Span V)
  | _,     []           => []
  | start, list :: rest => list.span start :: spansFrom (start + list.length) rest

def Items.entries : Items V → List (Entry V)
  | .items entries => entries
  | _              => []

theorem flattenFrom_eq {label : String} {i start : Nat} {es : List (Entry V)} :
    flattenFrom label i start es = (es.mapM (listItems label)).map fun lists =>
      ⟨lists.flatMap (·.entries), ownersFrom i lists, spansFrom start lists⟩ := by
  induction es generalizing i start
  case nil         => rfl
  case cons e es hi =>
    rw [flattenFrom, mapM_cons]
    cases listItems label e
    case none       => rfl
    case some items =>
      cases items <;> cases hm : es.mapM (listItems label) <;>
        simp [hi, hm, Items.entries, ownersFrom, spansFrom, Items.span, Items.length]

theorem listItems_entries {label : String} {e : Entry V} {list : Items V}
    (h : listItems label e = some list) : list.entries = iteratedEntries e := by
  cases hp : isPresent e.value
  case false =>
    obtain ⟨list', hl, ho⟩ := listItems_of_absent label hp
    obtain rfl := Option.some.inj (hl.symm.trans h)
    rcases ho with ⟨_, rfl, _⟩ | ⟨rfl, _⟩ <;> simp [iteratedEntries, hp, Items.entries]
  case true =>
    rw [listItems_of_present hp, presentItems] at h
    rw [iteratedEntries, if_pos hp]
    cases hi : Host.iterate e.value
    case none =>
      rw [hi] at h
      exact Option.some.inj h ▸ rfl
    case some result =>
      rw [hi] at h
      cases result
      case error _ => exact nomatch h
      case ok _    => exact Option.some.inj h ▸ rfl

-- A list with what is seeded for it.
abbrev SeededItems (I V : Type) := Seeded I V × Items V

def SeededItems.items (z : SeededItems I V) : List (Seeded I V) :=
  z.snd.entries.map (⟨·, z.fst.seed⟩)

variable {zs : List (SeededItems I V)}

theorem flatMap_entries :
    (zs.map (·.snd)).flatMap (·.entries) = (zs.flatMap SeededItems.items).map (·.entry) := by
  rw [List.flatMap_map, List.map_flatMap]
  simp [SeededItems.items, Function.comp_def]

theorem Items.length_eq {list : Items V} : list.length = list.entries.length := by
  cases list <;> rfl

theorem gather_replicate {before column : List α} {a : α} {n : Nat} :
    gather (before ++ a :: column) (List.replicate n before.length) = some (List.replicate n a) := by
  unfold gather
  rw [show List.replicate n a = (List.replicate n before.length).map fun _ => a by simp]
  refine mapM_eq_some_map_iff.mpr fun k hk => ?_
  rw [List.eq_of_mem_replicate hk]
  simp

theorem gather_ownersFrom {id : I} {b : List V} :
    gather (b ++ zs.map (·.fst.seed id)) (ownersFrom b.length (zs.map (·.snd))) =
      some ((zs.flatMap SeededItems.items).map (·.seed id)) := by
  induction zs generalizing b
  case nil          => rfl
  case cons z zs hi =>
    have hi := hi (b := b ++ [z.fst.seed id])
    rw [List.append_assoc, List.singleton_append, List.length_append, List.length_singleton] at hi
    rw [List.map_cons, List.map_cons, ownersFrom, gather, mapM_append]
    rw [gather] at hi
    rw [hi, ← gather, gather_replicate, Items.length_eq]
    simp [SeededItems.items, Function.comp_def, List.map_const']

theorem collectSpan_yields {itemIsNonNull : Bool} {before after completed : List (Completed V)}
    {list : Items V} (h : completed.length = list.length) :
    Yields (collectSpan itemIsNonNull (before ++ completed ++ after) (list.span before.length))
      (some (list.finish itemIsNonNull completed)) (list.caught itemIsNonNull completed) := by
  cases list
  case invalid error => exact .pure
  case null          => exact .pure
  case items entries =>
    have hc : (List.range entries.length).mapM
        (fun k => (before ++ completed ++ after)[before.length + k]?) = some completed := by
      have hm : completed = (List.range completed.length).map fun k => completed[k]?.getD (.value .null) := by
        refine List.ext_getElem (by simp) fun k hk _ => ?_
        simp [hk]
      conv => rhs; rw [hm]
      rw [show entries.length = completed.length from h.symm]
      refine mapM_eq_some_map_iff.mpr fun k hk => ?_
      have hk : k < completed.length := List.mem_range.mp hk
      simp [List.append_assoc, hk, List.getElem?_append]
    have hl := Yields.lift_mapM (V := V) (l := List.range entries.length)
      (f := fun k => (before ++ completed ++ after)[before.length + k]?)
    rw [hc] at hl
    refine hl.bind (s := fun items => some (collectItems itemIsNonNull items [] []).fst)
      fun items hi => ?_
    obtain rfl := Option.some.inj hi
    exact Yields.addErrors.map

theorem collectItems_errors {itemIsNonNull : Bool} {items : List (Completed V)} {done : List (Data V)}
    {errors : List (LocatedError V)} (h : itemIsNonNull → errors = []) :
    (collectItems itemIsNonNull items done errors).snd =
      errors ++ items.flatMap fun completed =>
        if itemIsNonNull then [] else completed.bubble?.toList := by
  induction items generalizing done errors
  case nil                    => simp [collectItems]
  case cons completed items hi =>
    cases completed <;> cases itemIsNonNull <;>
      simp_all [collectItems, Completed.bubble?]

-- The violations that lists catch are those of their items.
theorem caught_eq {z : SeededItems I V} {itemIsNonNull : Bool} {f : Seeded I V → Completed V} :
    z.snd.caught itemIsNonNull (z.items.map f) = z.items.flatMap fun y =>
      if itemIsNonNull then [] else (f y).bubble?.toList := by
  obtain ⟨x, list⟩ := z
  cases list
  case items entries =>
    rw [Items.caught, collectItems_errors fun _ => rfl, List.nil_append, List.flatMap_map]
  all_goals rfl

-- Each list collects its own items.
theorem collectSpans_yields {itemIsNonNull : Bool} {lists : List (Items V)}
    {b : List (Completed V)} {bss : List (List (Completed V))}
    (h : List.Forall₂ (fun list bs => bs.length = list.length) lists bss) :
    Yields ((spansFrom b.length lists).mapM (collectSpan itemIsNonNull (b ++ bss.flatten)))
      (some (List.zipWith (·.finish itemIsNonNull) lists bss))
      (List.zipWith (·.caught itemIsNonNull) lists bss).flatten := by
  induction h generalizing b
  case nil                        => exact .pure
  case cons list bs lists bss h _ hi =>
    rw [spansFrom, List.mapM_cons, List.flatten_cons, ← List.append_assoc, ← h, ← List.length_append]
    refine (collectSpan_yields h).bind
      (s := fun c => some (c :: List.zipWith (·.finish itemIsNonNull) lists bss)) fun c hf => ?_
    obtain rfl := Option.some.inj hf
    exact hi.map

end List

end Grafast
