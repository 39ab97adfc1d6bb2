import Grafast.Incremental.Walk

namespace Grafast.Incremental

open Batch

-- Neither path leads to the other.
def Apart (p q : Path) : Prop :=
  ¬ p <+: q ∧ ¬ q <+: p

theorem Apart.symm {p q : Path} (h : Apart p q) : Apart q p :=
  ⟨h.2, h.1⟩

-- Paths that lead to apart paths are apart as well.
theorem Apart.of_isPrefix {p q p' q' : Path} (h : Apart p q) (hp : p <+: p') (hq : q <+: q') : Apart p' q' := by
  constructor
  · intro hpq
    rcases List.prefix_or_prefix_of_prefix (hp.trans hpq) hq with hc | hc
    · exact h.1 hc
    · exact h.2 hc
  · intro hqp
    rcases List.prefix_or_prefix_of_prefix hp (hq.trans hqp) with hc | hc
    · exact h.1 hc
    · exact h.2 hc

theorem Apart.snoc {p : Path} {k k' : PathKey} (h : k ≠ k') : Apart (p ++ [k]) (p ++ [k']) := by
  constructor <;> intro hp
  · rw [List.prefix_append_right_inj] at hp
    obtain ⟨rest, hr⟩ := hp
    exact h (by simpa using (List.cons.inj hr).1)
  · rw [List.prefix_append_right_inj] at hp
    obtain ⟨rest, hr⟩ := hp
    exact h (by simpa using (List.cons.inj hr).1.symm)

theorem apart_of_ne {ι : Type} {path : ι → Path} {is : List ι} (h : is.Pairwise fun i j => Apart (path i) (path j))
    {i j : ι} (hi : i ∈ is) (hj : j ∈ is) (hne : i ≠ j) : Apart (path i) (path j) := by
  have : Std.Symm fun i j : ι => Apart (path i) (path j) := ⟨fun _ _ h => h.symm⟩
  exact h.forall hi hj hne

section

variable {U F V ι ρ : Type}

-- What can be seen from a path is what happens at the path or above it.
def sees (p : Path) (event : Event U F V) : Bool :=
  decide (event.place <+: p)

def Below (p : Path) (events : List (Event U F V)) : Prop :=
  ∀ event ∈ events, p <+: event.place

theorem Below.nil (p : Path) : Below p ([] : List (Event U F V)) :=
  fun _ he => absurd he List.not_mem_nil

theorem Below.append {p : Path} {l l' : List (Event U F V)} (h : Below p l) (h' : Below p l') : Below p (l ++ l') :=
  fun event he => (List.mem_append.mp he).elim (h event) (h' event)

theorem Below.mono {p q : Path} {l : List (Event U F V)} (h : Below q l) (hp : p <+: q) : Below p l :=
  fun event he => hp.trans (h event he)

theorem Below.flatMap {p : Path} {w : ι → List (Event U F V)} {is : List ι} (h : ∀ i ∈ is, Below p (w i)) :
    Below p (is.flatMap w) := by
  intro event he
  obtain ⟨i, hi, he⟩ := List.mem_flatMap.mp he
  exact h i hi event he

theorem Below.catchErrors (p : Path) (errors : List (LocatedError V)) :
    Below p (catchErrors p errors : List (Event U F V)) := by
  intro event he
  obtain ⟨error, -, rfl⟩ := List.mem_map.mp he
  exact List.prefix_rfl

theorem independent_of_apart {l l' : List (Event U F V)}
    (h : ∀ x ∈ l, ∀ y ∈ l', ∃ p q, Apart p q ∧ p <+: x.place ∧ q <+: y.place) : Independent sees l l' := by
  intro x hx y hy path hs
  obtain ⟨p, q, hpq, hp, hq⟩ := h x hx y hy
  rw [← Bool.not_eq_true]
  intro hs'
  rcases List.prefix_or_prefix_of_prefix (hp.trans (of_decide_eq_true hs)) (hq.trans (of_decide_eq_true hs')) with hc | hc
  · exact hpq.1 hc
  · exact hpq.2 hc

theorem Below.independent {p q : Path} {l l' : List (Event U F V)} (h : Below p l) (h' : Below q l')
    (hpq : Apart p q) : Independent sees l l' :=
  independent_of_apart fun x hx y hy => ⟨p, q, hpq, h x hx, h' y hy⟩

-- A run over a bucket whose members are apart makes of each member what it makes of it whatever else is in the
-- bucket, and what happens at or below a member's path is what happens for that member.
def Pointwise (path : ι → Path) (run : List ι → List ρ × List (Event U F V)) (r : ι → ρ)
    (w : ι → List (Event U F V)) : Prop :=
  (∀ i, Below (path i) (w i)) ∧
  ∀ is, is.Pairwise (fun i j => Apart (path i) (path j)) →
    (run is).1 = is.map r ∧ SameTrace sees (run is).2 (is.flatMap w)

variable {path : ι → Path} {is : List ι}

theorem pairwise_independent {w w' : ι → List (Event U F V)} (hw : ∀ i, Below (path i) (w i))
    (hw' : ∀ i, Below (path i) (w' i)) (h : is.Pairwise fun i j => Apart (path i) (path j)) :
    is.Pairwise fun i j => Independent sees (w' i) (w j) :=
  h.imp fun hij => (hw' _).independent (hw _) hij

end

variable {T U F V : Type} {errorPath : V → Option Path}

section List

variable {iterate : V → Except (FieldError V) (List (Cell V))}

theorem itemsOf_listItems (errorPath : V → Option Path) (iterate : V → Except (FieldError V) (List (Cell V)))
    (e : Entry V) : ∃ cells : List (Cell V),
    itemsOf (listItems errorPath iterate e) = cells.mapIdx fun index cell => ⟨cell, e.path ++ [.index index]⟩ := by
  unfold listItems
  cases e.cell with
  | error error => exact ⟨[], rfl⟩
  | ok value    =>
    cases value with
    | none       => exact ⟨[], rfl⟩
    | some value =>
      dsimp only
      cases iterate value with
      | error error => exact ⟨[], rfl⟩
      | ok cells    => exact ⟨cells, rfl⟩

theorem prefix_of_mem_entries {path : Path} {cells : List (Cell V)} {item : Entry V}
    (h : item ∈ cells.mapIdx fun index cell => (⟨cell, path ++ [.index index]⟩ : Entry V)) : path <+: item.path := by
  obtain ⟨k, hk, rfl⟩ := List.mem_mapIdx.mp h
  exact List.prefix_append _ _

theorem entries_apart (path : Path) (cells : List (Cell V)) :
    (cells.mapIdx fun index cell => (⟨cell, path ++ [.index index]⟩ : Entry V)).Pairwise
      fun i j => Apart i.path j.path := by
  rw [List.pairwise_iff_getElem]
  intro i j hi hj hij
  rw [List.getElem_mapIdx, List.getElem_mapIdx]
  apply Apart.snoc
  intro h
  injection h with h
  omega

theorem items_apart (errorPath : V → Option Path) (iterate : V → Except (FieldError V) (List (Cell V)))
    {es : List (Entry V)} (h : es.Pairwise fun i j => Apart i.path j.path) :
    ((es.map (listItems errorPath iterate)).flatMap itemsOf).Pairwise fun i j => Apart i.path j.path := by
  rw [List.flatMap_map, List.pairwise_flatMap]
  constructor
  · intro e _
    obtain ⟨cells, hc⟩ := itemsOf_listItems errorPath iterate e
    rw [hc]
    exact entries_apart _ _
  · refine h.imp fun {e e'} hee i hi j hj => ?_
    obtain ⟨cells, hc⟩ := itemsOf_listItems errorPath iterate e
    obtain ⟨cells', hc'⟩ := itemsOf_listItems errorPath iterate e'
    rw [hc] at hi
    rw [hc'] at hj
    exact hee.of_isPrefix (prefix_of_mem_entries hi) (prefix_of_mem_entries hj)

theorem finishLists_map (itemIsNonNull : Bool) (r : Entry V → Completed V)
    (lists : List (Except (LocatedError V) (Option (List (Entry V))))) :
    finishLists itemIsNonNull lists ((lists.flatMap itemsOf).map r) =
      lists.map fun list => finishList itemIsNonNull list ((itemsOf list).map r) := by
  induction lists with
  | nil              => rfl
  | cons list lists ih =>
    rw [List.flatMap_cons, List.map_append, finishLists, List.map_cons]
    rw [List.take_left' (by simp), List.drop_left' (by simp), ih]

end List

-- The results and events of a completer, each for one value.
abbrev Values (c : Completer T U F V) (errorPath : V → Option Path) [DecidableEq T] : Prop :=
  ∀ label, ∃ r w, Pointwise Entry.path (completeValues errorPath c label) r w

-- A parent that is walked keeps its place and its value.
abbrev Parents (run : List (Parent V) → List (Parent V) × List (Event U F V)) : Prop :=
  ∃ r w, Pointwise Parent.path run r w ∧ ∀ p, (r p).path = p.path

variable [DecidableEq T]

theorem Values.leaf {serialize : V → Except (FieldError V) V} :
    Values (.leaf serialize : Completer T U F V) errorPath := by
  intro label
  refine ⟨completeLeaf errorPath serialize, fun _ => [], fun e => Below.nil _, fun es _ => ?_⟩
  rw [completeValues]
  have hn : es.flatMap (fun _ => ([] : List (Event U F V))) = [] := by simp
  refine ⟨rfl, ?_⟩
  rw [hn]
  exact SameTrace.refl []

theorem Values.nonNull {inner : Completer T U F V} (h : Values inner errorPath) :
    Values (.nonNull inner) errorPath := by
  intro label
  obtain ⟨r, w, hb, hr⟩ := h label
  refine ⟨fun e => enforceNonNull label e (r e), w, hb, fun es hes => ?_⟩
  obtain ⟨hr, hw⟩ := hr es hes
  rw [completeValues]
  refine ⟨?_, hw⟩
  dsimp only
  rw [hr, List.zipWith_map_right, List.zipWith_self]

theorem Values.list {iterate : V → Except (FieldError V) (List (Cell V))} {item : Completer T U F V}
    (h : Values item errorPath) : Values (.list iterate item) errorPath := by
  intro label
  obtain ⟨r, w, hb, hr⟩ := h label
  let items (e : Entry V) := itemsOf (listItems errorPath iterate e)
  let result (e : Entry V) := finishList item.isNonNull (listItems errorPath iterate e) ((items e).map r)
  have hitems : ∀ e, Below e.path ((items e).flatMap w) := by
    intro e
    apply Below.flatMap
    intro i hi
    obtain ⟨cells, hc⟩ := itemsOf_listItems errorPath iterate e
    rw [show items e = _ from hc] at hi
    exact (hb i).mono (prefix_of_mem_entries hi)
  have hcatch : ∀ e, Below e.path (catchErrors e.path (result e).snd : List (Event U F V)) :=
    fun e => Below.catchErrors _ _
  refine ⟨fun e => (result e).fst, fun e => (items e).flatMap w ++ catchErrors e.path (result e).snd,
    fun e => (hitems e).append (hcatch e), fun es hes => ?_⟩
  obtain ⟨hr, hw⟩ := hr _ (items_apart errorPath iterate hes)
  rw [completeValues]
  dsimp only
  rw [hr, finishLists_map, List.map_map, List.map_map]
  refine ⟨rfl, ?_⟩
  rw [List.map_map, zip_map_self]
  refine SameTrace.trans (hw.append (SameTrace.refl _)) ?_
  rw [List.flatMap_map, List.flatMap_map, List.flatMap_assoc]
  exact SameTrace.flatMap_append (pairwise_independent hitems hcatch hes)

section Object

variable {runtimeType : V → Path → Except (FieldError V) T}

omit [DecidableEq T] in
theorem flatMap_filterMap {α β γ : Type} (k : α → Option β) (f : β → List γ) (as : List α) :
    (as.filterMap k).flatMap f = as.flatMap fun a => (k a).elim [] f := by
  induction as with
  | nil          => rfl
  | cons a as ih => cases hk : k a <;> simp [hk, ih]

theorem memberOf_path {type : T} {e : Entry V} {p : Parent V} (h : memberOf runtimeType type e = some p) :
    p.path = e.path := by
  obtain ⟨⟨value, t⟩, -, h⟩ := Option.bind_eq_some_iff.mp h
  dsimp only at h
  split at h
  · cases h
    rfl
  · cases h

theorem memberOf_type {type : T} {e : Entry V} {p : Parent V} (h : memberOf runtimeType type e = some p) :
    (concreteType runtimeType e).map (·.snd) = some type := by
  obtain ⟨⟨value, t⟩, hc, h⟩ := Option.bind_eq_some_iff.mp h
  dsimp only at h
  split at h
  case isTrue ht => rw [hc, ← ht]; rfl
  case isFalse   => cases h

theorem members_apart (runtimeType : V → Path → Except (FieldError V) T) (type : T)
    {es : List (Entry V)} (h : es.Pairwise fun i j => Apart i.path j.path) :
    (es.filterMap (memberOf runtimeType type)).Pairwise fun i j => Apart i.path j.path := by
  rw [List.pairwise_filterMap]
  refine h.imp fun hij p hp q hq => ?_
  rw [memberOf_path hp, memberOf_path hq]
  exact hij

theorem writeMembers_map (type : T) (d : Entry V → Completed V) (r : Parent V → Parent V) (es : List (Entry V)) :
    writeMembers runtimeType type es (es.map d) ((es.filterMap (memberOf runtimeType type)).map r) =
      es.map fun e => (memberOf runtimeType type e).elim (d e) fun p => (r p).slot.assemble := by
  have hm : (es.filterMap (memberOf runtimeType type)).map r =
      (es.map fun e => (e, d e)).filterMap fun x => (memberOf runtimeType type x.1).map r := by
    rw [List.filterMap_map, List.map_filterMap]
    rfl
  rw [writeMembers, zip_map_self, hm, refill_filterMap fun x => by simp, List.map_map, List.map_map]
  congr
  funext e
  dsimp only [Function.comp_apply]
  cases memberOf runtimeType type e <;> rfl

-- The type of a value, if it is one of those that have been walked.
def walkedType (runtimeType : V → Path → Except (FieldError V) T) (types : List T) (e : Entry V) : Option (T × Parent V) :=
  (concreteType runtimeType e).bind fun (value, t) => if t ∈ types then some (t, ⟨value, e.path, .live []⟩) else none

theorem walkedType_snoc (runtimeType : V → Path → Except (FieldError V) T) {types : List T}
    {type : T} (h : type ∉ types) (e : Entry V) :
    walkedType runtimeType (types ++ [type]) e =
      (walkedType runtimeType types e).or ((memberOf runtimeType type e).map (type, ·)) ∧
    ((walkedType runtimeType types e).isSome → memberOf runtimeType type e = none) := by
  unfold walkedType memberOf
  cases concreteType runtimeType e with
  | none         => simp
  | some present =>
    by_cases ht : present.snd ∈ types
    · have hne : ¬present.snd = type := fun he => h (he ▸ ht)
      simp [ht, hne]
    · by_cases he : present.snd = type
      · simp [h, he]
      · simp [ht, he]

section

variable {run : T → List (Parent V) → List (Parent V) × List (Event U F V)} {r : T → Parent V → Parent V}
  {w : T → Parent V → List (Event U F V)}

def walkedResult (r : T → Parent V → Parent V) (runtimeType : V → Path → Except (FieldError V) T)
    (errorPath : V → Option Path) (types : List T) (e : Entry V) : Completed V :=
  (walkedType runtimeType types e).elim (objectResult errorPath runtimeType e) fun (t, p) => (r t p).slot.assemble

def walkedEvents (w : T → Parent V → List (Event U F V)) (runtimeType : V → Path → Except (FieldError V) T)
    (types : List T) (e : Entry V) : List (Event U F V) :=
  (walkedType runtimeType types e).elim [] fun (t, p) => w t p

theorem walkedResult_snoc {types : List T} {type : T} (h : type ∉ types) (e : Entry V) :
    walkedResult r runtimeType errorPath (types ++ [type]) e =
      (memberOf runtimeType type e).elim (walkedResult r runtimeType errorPath types e)
        fun p => (r type p).slot.assemble := by
  obtain ⟨ho, hx⟩ := walkedType_snoc runtimeType h e
  unfold walkedResult
  rw [ho]
  cases hw : walkedType runtimeType types e with
  | some x => rw [hx (by rw [hw]; rfl)]; rfl
  | none   => cases memberOf runtimeType type e <;> rfl

theorem walkedEvents_snoc (w : T → Parent V → List (Event U F V))
    (runtimeType : V → Path → Except (FieldError V) T) {types : List T} {type : T} (h : type ∉ types) (e : Entry V) :
    walkedEvents w runtimeType (types ++ [type]) e =
      walkedEvents w runtimeType types e ++ (memberOf runtimeType type e).elim [] (w type) := by
  obtain ⟨ho, hx⟩ := walkedType_snoc runtimeType h e
  unfold walkedEvents
  rw [ho]
  cases hw : walkedType runtimeType types e with
  | some x => rw [hx (by rw [hw]; rfl)]; simp
  | none   => cases memberOf runtimeType type e <;> rfl

theorem walkedEvents_below (h : ∀ type, Pointwise Parent.path (run type) (r type) (w type)) (types : List T)
    (e : Entry V) : Below e.path (walkedEvents w runtimeType types e) := by
  unfold walkedEvents walkedType
  cases concreteType runtimeType e with
  | none         => exact Below.nil _
  | some present =>
    dsimp only [Option.bind_some]
    split
    · exact (h present.snd).1 ⟨present.fst, e.path, .live []⟩
    · exact Below.nil _

-- Type by type, the values of the types so far have their objects.
theorem foldl_types (errorPath : V → Option Path) (runtimeType : V → Path → Except (FieldError V) T)
    (h : ∀ type, Pointwise Parent.path (run type) (r type) (w type)) {es : List (Entry V)}
    (hes : es.Pairwise fun i j => Apart i.path j.path) (types done : List T) (hn : (done ++ types).Nodup)
    (events : List (Event U F V)) (he : SameTrace sees events (es.flatMap (walkedEvents w runtimeType done))) :
    let x := types.foldl (fun results type =>
      let walked := run type (es.filterMap (memberOf runtimeType type))
      (writeMembers runtimeType type es results.1 walked.1, results.2 ++ walked.2))
      (es.map (walkedResult r runtimeType errorPath done), events)
    x.1 = es.map (walkedResult r runtimeType errorPath (done ++ types)) ∧
      SameTrace sees x.2 (es.flatMap (walkedEvents w runtimeType (done ++ types))) := by
  induction types generalizing done events with
  | nil             => simpa using he
  | cons type types ih =>
    have hd : type ∉ done := by
      intro hd
      exact (List.nodup_append.mp hn).2.2 type hd type List.mem_cons_self rfl
    obtain ⟨hr, hw⟩ := (h type).2 _ (members_apart runtimeType type hes)
    have hstep := ih (done ++ [type]) (by simpa using hn)
    rw [List.foldl_cons, List.append_cons]
    dsimp only
    rw [hr, writeMembers_map]
    have hmember : ∀ e, Below e.path ((memberOf runtimeType type e).elim [] (w type)) := by
      intro e
      cases hm : memberOf runtimeType type e with
      | none   => exact Below.nil _
      | some p => exact memberOf_path hm ▸ (h type).1 p
    simp only [← walkedResult_snoc hd]
    apply hstep
    refine SameTrace.trans (he.append hw) ?_
    rw [flatMap_filterMap, funext (walkedEvents_snoc w runtimeType hd)]
    exact SameTrace.flatMap_append (pairwise_independent (walkedEvents_below h done) hmember hes)

end

theorem Values.object {childPlan : T → ObjectPlan T U F V}
    (h : ∀ type, Parents (executeObjectPlan errorPath (childPlan type))) :
    Values (.object runtimeType childPlan) errorPath := by
  intro label
  choose r w hrun _ using h
  let result (e : Entry V) : Completed V := (concreteType runtimeType e).elim (objectResult errorPath runtimeType e)
    fun (value, type) => (r type ⟨value, e.path, .live []⟩).slot.assemble
  let events (e : Entry V) : List (Event U F V) := (concreteType runtimeType e).elim []
    fun (value, type) => w type ⟨value, e.path, .live []⟩
  refine ⟨result, events, fun e => ?_, fun es hes => ?_⟩
  · dsimp only [events]
    cases concreteType runtimeType e with
    | none         => exact Below.nil _
    | some present => exact (hrun present.snd).1 ⟨present.fst, e.path, .live []⟩
  · have hnone : ∀ e, walkedType runtimeType [] e = none := by
      intro e
      unfold walkedType
      cases concreteType runtimeType e <;> simp
    have hall : ∀ e ∈ es, walkedType runtimeType (concreteTypes runtimeType es) e =
        (concreteType runtimeType e).map fun (value, type) => (type, ⟨value, e.path, .live []⟩) := by
      intro e he
      unfold walkedType
      cases hc : concreteType runtimeType e with
      | none         => rfl
      | some present =>
        have : present.snd ∈ concreteTypes runtimeType es := by
          rw [concreteTypes, List.mem_eraseDups]
          exact List.mem_filterMap.mpr ⟨e, he, by rw [hc]; rfl⟩
        simp [this]
    have hempty : es.flatMap (walkedEvents w runtimeType []) = [] :=
      List.flatMap_eq_nil_iff.mpr fun e _ => by rw [walkedEvents, hnone]; rfl
    have hf := foldl_types errorPath runtimeType hrun hes
      (concreteTypes runtimeType es) [] (nodup_eraseDups _) [] (hempty ▸ SameTrace.refl _)
    have hinit : walkedResult r runtimeType errorPath [] = objectResult errorPath runtimeType := by
      funext e
      rw [walkedResult, hnone]
      rfl
    rw [List.nil_append, hinit] at hf
    rw [completeValues]
    obtain ⟨hr, hw⟩ := hf
    constructor
    · refine hr.trans (List.map_congr_left fun e he => ?_)
      rw [walkedResult, hall e he]
      dsimp only [result]
      cases concreteType runtimeType e <;> rfl
    · refine hw.trans ?_
      rw [show es.flatMap (walkedEvents w runtimeType (concreteTypes runtimeType es)) = es.flatMap events from ?_]
      · exact SameTrace.refl _
      · refine List.flatMap_congr fun e he => ?_
        rw [walkedEvents, hall e he]
        dsimp only [events]
        cases concreteType runtimeType e <;> rfl

end Object

section Fields

-- One of several rounds over the parents of a bucket after another.
theorem Parents.comp {run run' : List (Parent V) → List (Parent V) × List (Event U F V)} (h : Parents run)
    (h' : Parents run') : Parents fun parents =>
      let (parents, events) := run parents
      let (parents, events') := run' parents
      (parents, events ++ events') := by
  obtain ⟨r, w, ⟨hb, hr⟩, hp⟩ := h
  obtain ⟨r', w', ⟨hb', hr'⟩, hp'⟩ := h'
  have hbelow : ∀ p, Below p.path (w' (r p)) := fun p => hp p ▸ hb' (r p)
  refine ⟨fun p => r' (r p), fun p => w p ++ w' (r p), ⟨fun p => (hb p).append (hbelow p), fun ps hps => ?_⟩,
    fun p => (hp' _).trans (hp p)⟩
  obtain ⟨hr, hw⟩ := hr ps hps
  have hps' : (ps.map r).Pairwise fun i j => Apart i.path j.path := by
    rw [List.pairwise_map]
    exact hps.imp fun hij => by rwa [hp, hp]
  obtain ⟨hr', hw'⟩ := hr' _ hps'
  dsimp only
  rw [hr]
  refine ⟨by rw [hr', List.map_map]; rfl, ?_⟩
  rw [List.flatMap_map] at hw'
  exact (hw.append hw').trans (SameTrace.flatMap_append (pairwise_independent hb hbelow hps))

theorem Parents.nil : Parents (walkFields errorPath ([] : List (FieldPlan T U F V))) := by
  refine ⟨id, fun _ => [], ⟨fun p => Below.nil _, fun ps _ => ?_⟩, fun p => rfl⟩
  have hn : ps.flatMap (fun _ => ([] : List (Event U F V))) = [] := by simp
  rw [walkFields, hn]
  exact ⟨(List.map_id ps).symm, SameTrace.refl []⟩

abbrev Streams (c : Completer T U F V) (errorPath : V → Option Path) : Prop :=
  ∀ label initialCount name e,
    Below e.path (completeStreamValue errorPath c label initialCount name e).2.1 ∧
    Below e.path (completeStreamValue errorPath c label initialCount name e).2.2

theorem Streams.list {iterate : V → Except (FieldError V) (List (Cell V))} {item : Completer T U F V}
    (h : Values item errorPath) : Streams (.list iterate item) errorPath := by
  intro label initialCount name e
  obtain ⟨r, w, hb, hr⟩ := h label
  rw [completeStreamValue]
  cases e.cell with
  | error _ => exact ⟨Below.nil _, Below.nil _⟩
  | ok cell =>
    cases cell with
    | none       => exact ⟨Below.nil _, Below.nil _⟩
    | some value =>
      dsimp only
      cases iterate value with
      | error _ => exact ⟨Below.nil _, Below.nil _⟩
      | ok cells =>
        dsimp only
        have hitems := (entries_apart e.path cells).take (i := initialCount)
        have hevents : Below e.path (completeValues errorPath item label
            ((cells.mapIdx fun index cell => (⟨cell, e.path ++ [.index index]⟩ : Entry V)).take initialCount)).2 := by
          intro event he
          obtain ⟨i, hi, he⟩ := List.mem_flatMap.mp ((hr _ hitems).2.perm.subset he)
          exact (prefix_of_mem_entries (List.mem_of_mem_take hi)).trans (hb i event he)
        split
        · exact ⟨hevents.append (Below.catchErrors _ _), Below.nil _⟩
        · refine ⟨hevents.append (Below.catchErrors _ _), fun event he => ?_⟩
          rw [List.mem_singleton.mp he]
          exact List.prefix_rfl

theorem Streams.nonNull {inner : Completer T U F V} (h : Streams inner errorPath) :
    Streams (.nonNull inner) errorPath := by
  intro label initialCount name e
  rw [completeStreamValue]
  exact h label initialCount name e

theorem Streams.leaf {serialize : V → Except (FieldError V) V} :
    Streams (.leaf serialize : Completer T U F V) errorPath := by
  intro label initialCount name e
  rw [completeStreamValue]
  exact ⟨Below.nil _, Below.nil _⟩

theorem Streams.object {runtimeType : V → Path → Except (FieldError V) T} {childPlan : T → ObjectPlan T U F V} :
    Streams (.object runtimeType childPlan) errorPath := by
  intro label initialCount name e
  rw [completeStreamValue]
  exact ⟨Below.nil _, Below.nil _⟩

omit [DecidableEq T] in
theorem entry_below (f : FieldPlan T U F V) {p : Parent V} {events : List (Event U F V)}
    (h : Below (f.entry p).path events) : Below p.path events :=
  h.mono (List.prefix_append _ _)

omit [DecidableEq T] in
theorem entries_live_apart (f : FieldPlan T U F V) {ps : List (Parent V)}
    (h : ps.Pairwise fun i j => Apart i.path j.path) :
    ((ps.filter (·.slot.isLive)).map f.entry).Pairwise fun i j => Apart i.path j.path := by
  rw [List.pairwise_map]
  exact (h.filter _).imp fun hij => hij.of_isPrefix (List.prefix_append _ _) (List.prefix_append _ _)

theorem Parents.field (f : FieldPlan T U F V) (hv : Values f.completer errorPath)
    (hs : Streams f.completer errorPath) : Parents (completeField errorPath f) := by
  obtain ⟨name, label, column, completer, stream⟩ := f
  let entry := FieldPlan.entry (⟨name, label, column, completer, stream⟩ : FieldPlan T U F V)
  let caught (e : Entry V) (c : Completed V) : List (Event U F V) :=
    catchErrors e.path (caughtError completer.isNonNull c)
  cases stream with
  | none         =>
    obtain ⟨r, w, hb, hr⟩ := hv label
    have hbw : ∀ p : Parent V, Below p.path (if p.slot.isLive then w (entry p) else []) := by
      intro p
      split
      · exact entry_below _ (hb _)
      · exact Below.nil _
    have hbc : ∀ p : Parent V, Below p.path (if p.slot.isLive then caught (entry p) (r (entry p)) else []) := by
      intro p
      split
      · exact entry_below _ (Below.catchErrors _ _)
      · exact Below.nil _
    refine ⟨fun p => if p.slot.isLive then p.write name completer.isNonNull (r (entry p)) else p,
      fun p => (if p.slot.isLive then w (entry p) else []) ++
        if p.slot.isLive then caught (entry p) (r (entry p)) else [],
      ⟨fun p => (hbw p).append (hbc p), fun ps hps => ?_⟩, fun p => by dsimp only; split <;> rfl⟩
    obtain ⟨hr, hw⟩ := hr _ (entries_live_apart ⟨name, label, column, completer, none⟩ hps)
    rw [completeField]
    dsimp only
    rw [hr]
    constructor
    · rw [List.map_map, refill_map]
      rfl
    · rw [zip_map_self, List.flatMap_map, List.flatMap_map, flatMap_filter]
      rw [List.flatMap_map, flatMap_filter] at hw
      exact (hw.append (SameTrace.refl _)).trans (SameTrace.flatMap_append (pairwise_independent hbw hbc hps))
  | some directive =>
    obtain ⟨initialCount, streamLabel⟩ := directive
    let head (e : Entry V) := completeStreamValue errorPath completer label initialCount streamLabel e
    refine ⟨fun p => if p.slot.isLive then p.write name completer.isNonNull (head (entry p)).1 else p,
      fun p => if p.slot.isLive then (head (entry p)).2.1 ++ caught (entry p) (head (entry p)).1 ++
        (head (entry p)).2.2 else [],
      ⟨fun p => ?_, fun ps _ => ?_⟩, fun p => by dsimp only; split <;> rfl⟩
    · dsimp only
      split
      · obtain ⟨he, hsunk⟩ := hs label initialCount streamLabel (entry p)
        exact entry_below _ ((he.append (Below.catchErrors _ _)).append hsunk)
      · exact Below.nil _
    · rw [completeField]
      dsimp only
      constructor
      · rw [List.map_map, List.map_map, refill_map]
        rfl
      · rw [List.flatMap_map, List.flatMap_map, flatMap_filter]
        exact SameTrace.refl _

-- A round that leaves the parents as they are.
theorem Parents.of_events {run : List (Parent V) → List (Event U F V)} (w : Parent V → List (Event U F V))
    (hb : ∀ p, Below p.path (w p)) (h : ∀ ps, run ps = ps.flatMap w) : Parents fun ps => (ps, run ps) :=
  ⟨id, w, ⟨hb, fun ps _ => ⟨(List.map_id ps).symm, h ps ▸ SameTrace.refl _⟩⟩, fun _ => rfl⟩

theorem Below.singleton (event : Event U F V) : Below event.place [event] := by
  intro event' he
  rw [List.mem_singleton.mp he]

theorem Parents.mint (deferred : Deferred U F) :
    Parents fun parents : List (Parent V) => (parents, mintEvents deferred parents) := by
  apply Parents.of_events fun p =>
    if deferred.newDeferUsages.isEmpty then [] else [.mint deferred.newDeferUsages p.path]
  · intro p
    split
    · exact Below.nil _
    · exact Below.singleton (.mint _ p.path)
  · intro ps
    unfold mintEvents
    split
    · simp
    · rw [List.map_eq_flatMap]

theorem Parents.capture (deferred : Deferred U F) :
    Parents fun parents : List (Parent V) => (parents, captureDeferredJobs deferred parents) := by
  apply Parents.of_events fun p =>
    if deferred.newDeferUsages.isEmpty && deferred.newGroups.isEmpty then
      []
    else if p.slot.isLive then [.defer deferred p.value p.path] else []
  · intro p
    split
    · exact Below.nil _
    · split
      · exact Below.singleton (.defer deferred p.value p.path)
      · exact Below.nil _
  · intro ps
    unfold captureDeferredJobs
    split
    · simp
    · rw [← flatMap_filter, List.map_eq_flatMap]

end Fields

variable (errorPath)

mutual

-- A walk of a bucket walks each of its values as if it were on its own.
theorem completeValues_pointwise : (c : Completer T U F V) → Values c errorPath
  | .leaf _               => .leaf
  | .nonNull inner        => .nonNull (completeValues_pointwise inner)
  | .list _ item          => .list (completeValues_pointwise item)
  | .object _ childPlan   => .object fun type => executeObjectPlan_pointwise (childPlan type)

theorem completeStreamValue_below : (c : Completer T U F V) → Streams c errorPath
  | .leaf _        => .leaf
  | .nonNull inner => .nonNull (completeStreamValue_below inner)
  | .list _ item   => .list (completeValues_pointwise item)
  | .object _ _    => .object

theorem executeObjectPlan_pointwise : (op : ObjectPlan T U F V) → Parents (executeObjectPlan errorPath op)
  | ⟨fields, deferred⟩ => ((Parents.mint deferred).comp (walkFields_pointwise fields)).comp (.capture deferred)

theorem walkFields_pointwise : (fs : List (FieldPlan T U F V)) → Parents (walkFields errorPath fs)
  | []      => .nil
  | f :: fs => (completeField_pointwise f).comp (walkFields_pointwise fs)

theorem completeField_pointwise : (f : FieldPlan T U F V) → Parents (completeField errorPath f)
  | ⟨name, label, column, completer, stream⟩ =>
    .field ⟨name, label, column, completer, stream⟩ (completeValues_pointwise completer)
      (completeStreamValue_below completer)

end

end Grafast.Incremental
