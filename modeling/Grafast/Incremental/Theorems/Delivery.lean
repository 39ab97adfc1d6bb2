import Grafast.Incremental.Theorems.Data

namespace Grafast

variable {V U : Type}

namespace IncRecord

theorem recordPath_isPrefix_group (group : ExecGroup U) : group.recordPath <+: group.path := by
  have : ∀ (records : List { record : DeferRecord U // record.path <+: group.path }) (deepest : Path),
      deepest <+: group.path → records.foldl (fun deepest record =>
        if deepest.length < record.val.path.length then record.val.path else deepest) deepest <+: group.path := by
    intro records
    induction records with
    | nil => exact fun _ h => h
    | cons record records ih =>
      intro deepest h
      apply ih
      dsimp only
      split
      · exact record.prop
      · exact h
  exact this group.deferRecords [] (List.nil_prefix)

theorem recordPath_isPrefix (record : IncRecord U) : record.recordPath <+: record.path := by
  cases record with
  | group g  => exact recordPath_isPrefix_group g
  | stream s => exact List.prefix_rfl

theorem path_mem_targets (record : IncRecord U) : record.path ∈ record.targets := by
  cases record <;> simp [path, targets]

theorem targets_isPrefix (record : IncRecord U) {path : Path} (h : path ∈ record.targets) :
    path <+: record.path := by
  cases record with
  | group g =>
    rcases List.mem_cons.mp h with rfl | h
    · exact List.prefix_rfl
    · obtain ⟨r, -, rfl⟩ := List.mem_map.mp h
      exact r.prop
  | stream s =>
    rw [List.mem_singleton.mp h]
    exact List.prefix_rfl

-- The null that has taken the place of a record is strictly above the place of its deepest fragment.
def CaughtIn (record : IncRecord U) (base : Nat) (data : Data V) : Prop :=
  ∀ n, data.nullDepth (record.path.drop base) = some n → base + n < record.recordPath.length

theorem pathNulled_recordPath (record : IncRecord U) (base : Nat) (data : Data V) :
    pathNulled data (record.recordPath.drop base) = true ↔
      ∃ n, data.nullDepth (record.path.drop base) = some n ∧ base + n < record.recordPath.length := by
  have hd : record.recordPath.drop base <+: record.path.drop base := by
    obtain ⟨rest, hr⟩ := record.recordPath_isPrefix
    rw [← hr, List.drop_append]
    exact List.prefix_append _ _
  rw [pathNulled_iff]
  simp only [Data.nullDepth_isPrefix hd, List.length_drop]
  constructor
  · rintro ⟨n, ⟨hn, _⟩, hlt⟩
    exact ⟨n, hn, by omega⟩
  · rintro ⟨n, hn, hlt⟩
    exact ⟨n, ⟨hn, by omega⟩, by omega⟩

-- A record that is filtered out has had its place taken.
theorem nulled_of_pathNulled {record : IncRecord U} {base : Nat} {data : Data V}
    (h : pathNulled data (record.recordPath.drop base) = true) : data.nulled (record.path.drop base) = true := by
  obtain ⟨n, hn, -⟩ := (pathNulled_recordPath record base data).mp h
  exact Option.isSome_iff_exists.mpr ⟨n, hn⟩

theorem caughtIn_iff {record : IncRecord U} {base : Nat} {data : Data V} : record.CaughtIn base data ↔
    (pathNulled data (record.recordPath.drop base) = false → data.nulled (record.path.drop base) = false) := by
  constructor
  · intro hc hk
    by_contra hn
    obtain ⟨n, hn⟩ := Option.isSome_iff_exists.mp (Bool.of_not_eq_false hn)
    rw [(pathNulled_recordPath record base data).mpr ⟨n, hn, hc n hn⟩] at hk
    cases hk
  · intro h n hn
    by_contra hlt
    have hk : pathNulled data (record.recordPath.drop base) = false := by
      rw [← Bool.not_eq_true, pathNulled_recordPath]
      rintro ⟨m, hm, hmlt⟩
      cases hn.symm.trans hm
      exact hlt hmlt
    have := h hk
    rw [Data.nulled, hn] at this
    cases this

end IncRecord

namespace Delivery

namespace Outcome

-- The records that come with what is delivered.
def revealed : Outcome V U → List (IncRecord U)
  | .group _ (.live _) children                   => children
  | .group _ (.dead _) _                          => []
  | .item _ itemIsNonNull completed children      =>
    if (buildStreamItem itemIsNonNull completed).isSome then children else []
  | .exhausted _                                  => []

-- The children of a group are captured in its own run, and not in that of another group of its batch in which
-- its object appears.
def Routed : Outcome V U → Prop
  | .group g (.live output) children => ∀ record ∈ children, Captured g.path (.object output) record
  | _                                => True

-- No null takes the place of a captured record without being caught: by the filter of the group, or, as the
-- records of an item are not filtered, by there being none.
def Caught : Outcome V U → Prop
  | .group g (.live output) children => ∀ record ∈ children, record.CaughtIn g.path.length (.object output)
  | .group _ (.dead _) _             => True
  | .item stream itemIsNonNull completed children =>
    ∀ item, buildStreamItem itemIsNonNull completed = some item →
      ∀ record ∈ children, item.nulled (record.path.drop (stream.path.length + 1)) = false
  | .exhausted _                     => True

end Outcome

theorem Captured.path_eq {base : Path} {data : Data V} {record : IncRecord U} (h : Captured base data record) :
    base ++ record.path.drop base.length = record.path := by
  obtain ⟨rest, hr⟩ := h.below
  rw [← hr, List.drop_left]

-- Where the output of a group has been merged, what is new is read as it is in the output.
theorem child_object_append {fields output : List (String × Data V)}
    (hf : ∀ name ∈ output.map Prod.fst, name ∉ fields.map Prod.fst) {key : PathKey} {node : Data V}
    (h : (Data.object output).child key = some node) : (Data.object (fields ++ output)).child key = some node := by
  cases key with
  | index _ => cases h
  | name k  =>
    have hk : output.lookup k = some node := h
    obtain ⟨before, after, ho, -⟩ := List.lookup_eq_some_iff.mp hk
    have hm : k ∈ output.map Prod.fst := by
      rw [ho]
      simp
    have hn : fields.lookup k = none := by
      rw [List.lookup_eq_none_iff]
      intro field hfield
      rw [bne_iff_ne]
      rintro rfl
      exact hf _ hm (List.mem_map_of_mem hfield)
    rw [Data.child, List.lookup_append, hn]
    exact h

theorem get?_object_append {fields output : List (String × Data V)}
    (hf : ∀ name ∈ output.map Prod.fst, name ∉ fields.map Prod.fst) {path : Path}
    (h : ((Data.object output).get? path).isSome) : ((Data.object (fields ++ output)).get? path).isSome := by
  cases path with
  | nil           => rfl
  | cons key path =>
    rw [Data.get?_cons] at h ⊢
    cases hc : (Data.object output).child key with
    | none      => rw [hc] at h; cases h
    | some node =>
      rw [hc] at h
      rw [child_object_append hf hc]
      exact h

theorem nulled_object_append {fields output : List (String × Data V)}
    (hf : ∀ name ∈ output.map Prod.fst, name ∉ fields.map Prod.fst) {path : Path}
    (h : (Data.object output).nulled path = false → ((Data.object output).get? path).isSome) :
    (Data.object (fields ++ output)).nulled path = (Data.object output).nulled path := by
  cases path with
  | nil           => rfl
  | cons key path =>
    rw [Data.get?_cons] at h
    rw [Data.nulled, Data.nulled, Data.nullDepth_cons rfl] at *
    rw [Data.nullDepth_cons rfl]
    cases hc : (Data.object output).child key with
    | none      =>
      rw [hc] at h
      cases h rfl
    | some node => rw [child_object_append hf hc]

-- The client reads a captured record's place as it is in the data that the record came with.
theorem read_merged {client : Data V} {base : Path} {fields output : List (String × Data V)}
    {record : IncRecord U} (hg : client.get? base = some (.object fields))
    (hf : ∀ name ∈ output.map Prod.fst, name ∉ fields.map Prod.fst) (hc : Captured base (.object output) record) :
    (client.modify base (.merge output)).nulled record.path =
        (Data.object output).nulled (record.path.drop base.length) ∧
      ((Data.object output).nulled (record.path.drop base.length) = false →
        (client.modify base (.merge output)).present record.path = true) := by
  have hm := Data.get?_modify hg (.merge output)
  have hn : (client.modify base (.merge output)).nulled record.path =
      (Data.object output).nulled (record.path.drop base.length) := by
    rw [← hc.path_eq, Data.nulled_append hm, List.drop_left]
    exact nulled_object_append hf hc.reached
  refine ⟨hn, fun h => Data.present_of_not_nulled (hn.trans h) ?_⟩
  rw [← hc.path_eq, Data.get?_append, hm]
  exact get?_object_append hf (hc.reached h)

theorem read_appended {client item : Data V} {base : Path} {items : List (Data V)} {record : IncRecord U}
    (hg : client.get? base = some (.list items))
    (hc : Captured (base ++ [.index items.length]) item record) :
    (client.modify base (.append item)).nulled record.path = item.nulled (record.path.drop (base.length + 1)) ∧
      (item.nulled (record.path.drop (base.length + 1)) = false →
        (client.modify base (.append item)).present record.path = true) := by
  have hi : (client.modify base (.append item)).get? (base ++ [.index items.length]) = some item := by
    rw [Data.get?_append, Data.get?_modify hg]
    simp [Data.append, Data.get?_cons, Data.get?_nil, Data.child]
  have hlen : (base ++ [PathKey.index items.length]).length = base.length + 1 := by simp
  have hn : (client.modify base (.append item)).nulled record.path =
      item.nulled (record.path.drop (base.length + 1)) := by
    rw [← hlen, ← hc.path_eq, Data.nulled_append hi, List.drop_left]
  refine ⟨hn, fun h => Data.present_of_not_nulled (hn.trans h) ?_⟩
  rw [← hc.path_eq, Data.get?_append, hi]
  rw [← hlen] at h
  exact hc.reached h

namespace State

section

-- Nothing that may still be announced or delivered has a null at its path or above it.
def Clear (s : State V U) : Prop :=
  ∀ record ∈ s.live, ∀ path ∈ record.targets, s.client.nulled path = false

def Present (s : State V U) : Prop :=
  ∀ record ∈ s.live, s.client.present record.path = true

-- The records that are lost are those whose place is taken.
def Retains (s : State V U) (revealed : List (IncRecord U)) : Prop :=
  ∀ record ∈ revealed, s.client.nulled record.path = false → record ∈ s.live

variable {s : State V U}

theorem Present.clear (h : s.Present) : s.Clear := by
  intro record hr path hp
  rw [← Bool.not_eq_true]
  intro hn
  have := Data.nulled_isPrefix (record.targets_isPrefix hp) hn
  rw [Data.not_nulled_of_present (h record hr)] at this
  cases this

theorem Present.get? {record : IncRecord U} (h : s.Present) (hr : record ∈ s.live) :
    ∃ node, s.client.get? record.path = some node ∧ node.isNull = false :=
  Data.present_iff.mp (h record hr)

end

variable [DecidableEq U] {s : State V U}

theorem Present.drop (h : s.Present) (record : IncRecord U) : (s.drop record).Present :=
  fun other ho => h other (List.mem_of_mem_erase ho)

omit [DecidableEq U] in
theorem Permits.object {g : ExecGroup U} {output : List (String × Data V)} {children : List (IncRecord U)}
    (hp : s.Present) (hs : s.Permits (.group g (.live output) children)) :
    ∃ fields, s.client.get? g.path = some (.object fields) ∧
      ∀ name ∈ output.map Prod.fst, name ∉ fields.map Prod.fst := by
  obtain ⟨node, hg, hn⟩ := hp.get? hs.1
  obtain ⟨fields, rfl, hf⟩ := hs.2 node hg hn
  exact ⟨fields, hg, hf⟩

omit [DecidableEq U] in
theorem Permits.list {stream : StreamRec} {itemIsNonNull : Bool} {completed : Completed V} {item : Data V}
    {children : List (IncRecord U)} (hp : s.Present)
    (hs : s.Permits (.item stream itemIsNonNull completed children))
    (hb : buildStreamItem itemIsNonNull completed = some item) :
    ∃ items, s.client.get? stream.path = some (.list items) ∧
      ∀ record ∈ children, Captured (stream.path ++ [.index items.length]) item record := by
  obtain ⟨node, hg, hn⟩ := hp.get? hs.1
  obtain ⟨items, rfl, hcap⟩ := hs.2 item hb node hg hn
  exact ⟨items, hg, hcap⟩

theorem Present.deliver {outcome : Outcome V U} (hp : s.Present) (hs : s.Permits outcome)
    (hr : outcome.Routed) (hc : outcome.Caught) : (s.deliver outcome).Present := by
  cases outcome with
  | group g out children =>
    cases out with
    | dead _      => exact hp.drop _
    | live output =>
      obtain ⟨fields, hg, hf⟩ := Permits.object hp hs
      intro record hm
      rcases List.mem_append.mp hm with hm | hm
      · exact Data.present_modify (Data.present_merge output) _ (hp record (List.mem_of_mem_erase hm))
      · obtain ⟨hm, hk⟩ := List.mem_filter.mp hm
        apply (read_merged hg hf (hr record hm)).2
        exact IncRecord.caughtIn_iff.mp (hc record hm) (by simpa using hk)
  | item stream itemIsNonNull completed children =>
    cases hb : buildStreamItem itemIsNonNull completed with
    | none      =>
      rw [State.deliver, hb]
      exact hp.drop _
    | some item =>
      obtain ⟨items, hg, hcap⟩ := Permits.list hp hs hb
      rw [State.deliver, hb]
      intro record hr
      rcases List.mem_append.mp hr with hr | hr
      · exact Data.present_modify (Data.present_append item) _ (hp record hr)
      · exact (read_appended hg (hcap record hr)).2 (hc item hb record hr)
  | exhausted stream => exact hp.drop _

theorem Retains.deliver {outcome : Outcome V U} (hp : s.Present) (hs : s.Permits outcome) (ho : outcome.Routed) :
    (s.deliver outcome).Retains outcome.revealed := by
  cases outcome with
  | group g out children =>
    cases out with
    | dead _      => exact fun record hr => absurd hr (List.not_mem_nil)
    | live output =>
      obtain ⟨fields, hg, hf⟩ := Permits.object hp hs
      intro record hr hclear
      apply List.mem_append_right
      refine List.mem_filter.mpr ⟨hr, ?_⟩
      rw [Bool.not_eq_true', ← Bool.not_eq_true]
      intro hk
      have := (read_merged hg hf (ho record hr)).1.symm.trans hclear
      rw [IncRecord.nulled_of_pathNulled hk] at this
      cases this
  | item stream itemIsNonNull completed children =>
    intro record hr _
    cases hb : buildStreamItem itemIsNonNull completed with
    | none      =>
      rw [Outcome.revealed, hb] at hr
      cases hr
    | some item =>
      rw [Outcome.revealed, hb] at hr
      rw [State.deliver, hb]
      exact List.mem_append_right _ hr
  | exhausted stream => exact fun record hr => absurd hr (List.not_mem_nil)

theorem Clear.caught {outcome : Outcome V U} (hp : s.Present) (hs : s.Permits outcome) (ho : outcome.Routed)
    (hc : (s.deliver outcome).Clear) : outcome.Caught := by
  cases outcome with
  | group g out children =>
    cases out with
    | dead _      => trivial
    | live output =>
      obtain ⟨fields, hg, hf⟩ := Permits.object hp hs
      intro record hr
      apply IncRecord.caughtIn_iff.mpr
      intro hk
      rw [← (read_merged hg hf (ho record hr)).1]
      apply hc record _ _ record.path_mem_targets
      exact List.mem_append_right _ (List.mem_filter.mpr ⟨hr, by simpa using hk⟩)
  | item stream itemIsNonNull completed children =>
    intro item hb record hr
    obtain ⟨items, hg, hcap⟩ := Permits.list hp hs hb
    rw [State.deliver, hb] at hc
    rw [← (read_appended hg (hcap record hr)).1]
    exact hc record (List.mem_append_right _ hr) _ record.path_mem_targets
  | exhausted stream => trivial

-- A run of deliveries, with what is said of it: in every state nothing at a null may be announced or
-- delivered, and no record whose place is there gets lost.
def Delivers (s : State V U) : List (Outcome V U) → Prop
  | []                  => s.Clear
  | outcome :: outcomes =>
    s.Clear ∧ (s.deliver outcome).Retains outcome.revealed ∧ (s.deliver outcome).Delivers outcomes

theorem Present.delivers_iff {outcomes : List (Outcome V U)} (hp : s.Present) (hs : s.Permitted outcomes)
    (hr : ∀ outcome ∈ outcomes, outcome.Routed) :
    s.Delivers outcomes ↔ ∀ outcome ∈ outcomes, outcome.Caught := by
  induction outcomes generalizing s with
  | nil => simpa [Delivers] using hp.clear
  | cons outcome outcomes ih =>
    obtain ⟨hs, hss⟩ := hs
    obtain ⟨hr, hrs⟩ := List.forall_mem_cons.mp hr
    rw [List.forall_mem_cons]
    constructor
    · rintro ⟨-, -, hd⟩
      have hclear : (s.deliver outcome).Clear := by
        cases outcomes with
        | nil      => exact hd
        | cons _ _ => exact hd.1
      have hc := hclear.caught hp hs hr
      exact ⟨hc, (ih (hp.deliver hs hr hc) hss hrs).mp hd⟩
    · rintro ⟨hc, hcs⟩
      exact ⟨hp.clear, Retains.deliver hp hs hr, (ih (hp.deliver hs hr hc) hss hrs).mpr hcs⟩

omit [DecidableEq U] in
theorem init_present {data : Data V} {records : List (IncRecord U)}
    (hr : ∀ record ∈ records, Captured [] data record) (hc : ∀ record ∈ records, record.CaughtIn 0 data) :
    (init data records).Present := by
  intro record hm
  obtain ⟨hm, hk⟩ := List.mem_filter.mp hm
  have hn := IncRecord.caughtIn_iff.mp (hc record hm) (by simpa using hk)
  exact Data.present_of_not_nulled hn ((hr record hm).reached hn)

omit [DecidableEq U] in
theorem init_retains (data : Data V) (records : List (IncRecord U)) : (init data records).Retains records := by
  intro record hr hn
  refine List.mem_filter.mpr ⟨hr, ?_⟩
  rw [Bool.not_eq_true', ← Bool.not_eq_true]
  intro hk
  have hn' : data.nulled (record.path.drop 0) = true := IncRecord.nulled_of_pathNulled hk
  exact absurd (hn'.symm.trans hn) Bool.noConfusion

-- In a run in which no group is given the children of another one, nothing at a null is announced or delivered
-- and nothing else is lost, just if every null that takes the place of a record is caught.
theorem init_delivers_iff {data : Data V} {records : List (IncRecord U)} {outcomes : List (Outcome V U)}
    (hr : ∀ record ∈ records, Captured [] data record) (hs : (init data records).Permitted outcomes)
    (ho : ∀ outcome ∈ outcomes, outcome.Routed) :
    ((init data records).Retains records ∧ (init data records).Delivers outcomes) ↔
      (∀ record ∈ records, record.CaughtIn 0 data) ∧ ∀ outcome ∈ outcomes, outcome.Caught := by
  constructor
  · rintro ⟨-, hd⟩
    have hclear : (init data records).Clear := by
      cases outcomes with
      | nil      => exact hd
      | cons _ _ => exact hd.1
    have hc : ∀ record ∈ records, record.CaughtIn 0 data := by
      intro record hm
      apply IncRecord.caughtIn_iff.mpr
      intro hk
      exact hclear record (List.mem_filter.mpr ⟨hm, by simpa using hk⟩) _ record.path_mem_targets
    exact ⟨hc, ((init_present hr hc).delivers_iff hs ho).mp hd⟩
  · rintro ⟨hc, hcs⟩
    exact ⟨init_retains data records, ((init_present hr hc).delivers_iff hs ho).mpr hcs⟩

end State

end Delivery

-- `{ hero { name ... @defer { nested { bar } } } }`, where `nested` is of the deferred fragment alone or
-- also of the initial fields, and where the hero is null in the end or not.
namespace Hero

open Delivery

def hero : Path := [.name "hero"]

def nested : Path := [.name "hero", .name "nested"]

def fragment (path : Path) : DeferRecord Nat := ⟨0, path, none, none⟩

def atHero : IncRecord Nat := .group ⟨hero, [⟨fragment hero, by decide⟩]⟩

-- The fragment is declared at the operation, and all that it adds is below `nested`.
def atNested : IncRecord Nat := .group ⟨nested, [⟨fragment [], by decide⟩]⟩

def friends : Path := [.name "hero", .name "friends"]

def atFriends : IncRecord Nat := .group ⟨friends, [⟨fragment friends, by decide⟩]⟩

def stream : StreamRec := ⟨[.name "heroes"], none⟩

def item : IncRecord Nat := .group ⟨stream.path ++ [.index 0], [⟨fragment (stream.path ++ [.index 0]), by decide⟩]⟩

def present : Data Nat := .object [("hero", .object [("name", .leaf 1)])]

def absent : Data Nat := .object [("hero", .null)]

def heroes : Data Nat := .object [("heroes", .list [])]

def completed : Outcome Nat Nat :=
  .group ⟨hero, [⟨fragment hero, by decide⟩]⟩ (.live [("friends", .object [("count", .leaf 2)])]) [atFriends]

def bubbled : Outcome Nat Nat := .item stream false (.bubble ⟨.typeError "", stream.path ++ [.index 0]⟩) [item]

theorem atHero_captured : ∀ record ∈ [atHero], Captured [] present record := by
  intro record hr
  cases List.mem_singleton.mp hr
  exact ⟨List.nil_prefix, fun _ => rfl⟩

theorem completed_permitted : (State.init present [atHero]).Permitted [completed] := by
  refine ⟨⟨List.mem_cons_self, ?_⟩, trivial⟩
  intro node hg _
  cases hg
  exact ⟨[("name", .leaf 1)], rfl, by decide⟩

theorem completed_routed : ∀ outcome ∈ [completed], outcome.Routed := by
  intro outcome ho
  cases List.mem_singleton.mp ho
  intro record hr
  cases List.mem_singleton.mp hr
  exact ⟨by decide, fun _ => rfl⟩

theorem init_delivers :
    (State.init present [atHero]).Retains [atHero] ∧ (State.init present [atHero]).Delivers [completed] := by
  apply (State.init_delivers_iff atHero_captured completed_permitted completed_routed).mpr
  constructor
  · intro record hr n hn
    cases List.mem_singleton.mp hr
    cases hn
  · intro outcome ho
    cases List.mem_singleton.mp ho
    intro record hr n hn
    cases List.mem_singleton.mp hr
    cases hn

-- Two users with the deferred group `profile { boss { ... @defer { slow } } failing! }`. The boss of the second
-- user is the first user, so that the group below it is a child of the group of the first user, while the
-- profile that it hangs off is null.
def users : Data Nat := .object [("users", .list [.object [], .object []])]

def user (index : Nat) : Path := [.name "users", .index index]

def atUser (index : Nat) : ExecGroup Nat := ⟨user index, [⟨fragment (user index), List.prefix_rfl⟩]⟩

def boss : Path := [.name "users", .index 1, .name "profile", .name "boss"]

def atBoss : IncRecord Nat := .group ⟨boss, [⟨fragment boss, by decide⟩]⟩

def profiles : List (Outcome Nat Nat) :=
  [.group (atUser 0) (.live [("profile", .object [("boss", .object []), ("failing", .leaf 1)])]) [atBoss],
    .group (atUser 1) (.live [("profile", .null)]) []]

-- The group is kept although its hero is null, and so is the one of an item that is null and the one of a boss
-- whose profile is null.
theorem not_delivers :
    ((∀ record ∈ [atNested], Captured [] absent record) ∧ (State.init absent [atNested]).Permitted [] ∧
      ¬(State.init absent [atNested]).Delivers []) ∧
    ((State.init heroes [.stream stream] : State Nat Nat).Permitted [bubbled] ∧
      ¬(State.init heroes [.stream stream]).Delivers [bubbled]) ∧
    (State.init users [.group (atUser 0), .group (atUser 1)]).Permitted profiles ∧
      (∀ outcome ∈ profiles, outcome.Caught) ∧
      ¬(State.init users [.group (atUser 0), .group (atUser 1)]).Delivers profiles := by
  refine ⟨⟨?_, trivial, ?_⟩, ⟨⟨⟨?_, ?_⟩, trivial⟩, ?_⟩, ⟨⟨?_, ?_⟩, ⟨?_, ?_⟩, trivial⟩, ?_, ?_⟩
  · intro record hr
    cases List.mem_singleton.mp hr
    exact ⟨List.nil_prefix, fun h => absurd h (by decide)⟩
  · intro hd
    exact absurd (hd atNested (by decide) nested (by decide)) (by decide)
  · decide
  · intro data hb node hg _
    cases hb
    cases hg
    refine ⟨[], rfl, fun record hr => ?_⟩
    cases List.mem_singleton.mp hr
    exact ⟨List.prefix_rfl, fun h => absurd h (by decide)⟩
  · intro hd
    exact absurd (hd.2.2 item (by decide) item.path (by decide)) (by decide)
  · decide
  · intro node hg _
    cases hg
    exact ⟨[], rfl, by decide⟩
  · decide
  · intro node hg _
    cases hg
    exact ⟨[], rfl, by decide⟩
  · intro outcome ho
    rcases List.mem_pair.mp ho with rfl | rfl
    · intro record hr n hn
      cases List.mem_singleton.mp hr
      cases hn
    · exact fun record hr => absurd hr List.not_mem_nil
  · intro hd
    exact absurd (hd.2.2.2.2 atBoss (by decide) boss (by decide)) (by decide)

end Hero

end Grafast
