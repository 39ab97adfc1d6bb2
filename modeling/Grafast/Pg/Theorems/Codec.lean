import Grafast.Pg.Mutation
import Grafast.Pg.Relation
import Grafast.Pg.Theorems.Select

namespace Grafast

open Sql

variable {C A D B V : Type}

namespace PgResource

variable {resource : PgResource C A V} {r s : C → Option V}

-- Encoding undoes decoding, in all attributes.
def Invertible (resource : PgResource C A V) : Prop :=
  ∀ (row : RowDict C A V) (name : C ⊕ A), resource.encodeValue name (resource.decodeRow row name) = row name

theorem Invertible.decodeRow_inj (h : resource.Invertible)
    (he : resource.decodeRow (resource.project r) = resource.decodeRow (resource.project s)) : r = s := by
  funext column
  have hr := h (resource.project r) (.inl column)
  have hs := h (resource.project s) (.inl column)
  rw [he] at hr
  exact hr.symm.trans hs

end PgResource

namespace PgRelation

-- The keys of a relation, as the database has them, and as they are read from the row that has been decoded.
def rawKey (relation : PgRelation C A D B V) (resource : PgResource C A V)
    (parent : Option (C → Option V)) : Key V :=
  relationKey relation.localColumns (parent.map resource.project)

def decodedKey (relation : PgRelation C A D B V) (resource : PgResource C A V)
    (parent : Option (C → Option V)) : Key V :=
  relationKey relation.localColumns (parent.map fun row => resource.decodeRow (resource.project row))

def lookupKey (relation : PgRelation C A D B V) (key : Key V) : Key V :=
  normalizeLookupKey key (1 < relation.remoteColumns.length)

-- Whether a row has a key, without a NULL in it.
def Addresses (relation : PgRelation C A D B V) (key : Key V) (row : D → Option V) : Prop :=
  (relation.remoteColumns.map row).all (·.isSome) = true ∧
    relation.lookupKey key = some (relation.remoteColumns.map row)

-- The codecs leave the key of a parent as it is, or no row has it either way.
def Keeps (relation : PgRelation C A D B V) (resource : PgResource C A V) (table : List (D → Option V))
    (parent : Option (C → Option V)) : Prop :=
  relation.lookupKey (relation.decodedKey resource parent) =
      relation.lookupKey (relation.rawKey resource parent) ∨
    ∀ row ∈ table, ¬relation.Addresses (relation.decodedKey resource parent) row ∧
      ¬relation.Addresses (relation.rawKey resource parent) row

variable [LinearOrder V]

-- The steps that look up a relation give each parent the same, by its decoded key as by its raw one.
def Transparent (relation : PgRelation C A D B V) (resource : PgResource C A V)
    (table : List (D → Option V)) (parents : List (Option (C → Option V))) : Prop :=
  ∀ (step : PgSelectStep D B V) (e : Engine) (sourceValues : SourceValues),
    step.resource = relation.target → step.matchColumns = relation.remoteColumns →
      (step.execute e table sourceValues (parents.map (relation.decodedKey resource))).entries =
          (step.execute e table sourceValues (parents.map (relation.rawKey resource))).entries ∧
        (PgSelectSingleStep.execute step e table sourceValues
            (parents.map (relation.decodedKey resource))).entries =
          (PgSelectSingleStep.execute step e table sourceValues
            (parents.map (relation.rawKey resource))).entries

variable {relation : PgRelation C A D B V} {resource : PgResource C A V} {table : List (D → Option V)}
variable {parents : List (Option (C → Option V))} {step : PgSelectStep D B V} {e : Engine}
variable {sourceValues : SourceValues} {keys : List (Key V)} {key : Key V} {row : D → Option V}

theorem matchPredicate_iff (hm : step.matchColumns = relation.remoteColumns) :
    step.matchPredicate (coalesceKeys (step.normalizedKeys keys)).fst row = true ↔
      ∃ key ∈ keys, relation.Addresses key row := by
  rw [PgKeyed.matchPredicate_iff, PgSelectStep.mem_uniqueKeys, PgKeyed.isComposite, hm]
  exact ⟨fun ⟨hs, key, hk, hl⟩ => ⟨key, hk, hs, hl⟩, fun ⟨key, hk, hs, hl⟩ => ⟨hs, key, hk, hl⟩⟩

-- A select without a page and without predicates gives an entry all rows that its key addresses.
def selectAll (relation : PgRelation C A D B V) : PgSelectStep D B V where
  resource        := relation.target
  matchColumns    := relation.remoteColumns
  orderBy         := []
  wherePredicates := []
  first           := .literal none
  offset          := .literal (some 0)

theorem mem_entryRows_selectAll (e : Engine) (sourceValues : SourceValues) {d : RowDict D B V}
    (hk : key ∈ keys) :
    d ∈ relation.selectAll.entryRows e table sourceValues keys key ↔
      ∃ row ∈ table, relation.Addresses key row ∧ relation.selectAll.present row = d := by
  have hr (row : D → Option V) : row ∈ relation.selectAll.runQuery e table
      (coalesceKeys (relation.selectAll.normalizedKeys keys)).fst sourceValues ↔
        row ∈ table ∧ ∃ key ∈ keys, relation.Addresses key row := by
    have hl : relation.selectAll.isLimited = false := rfl
    rw [PgSelectStep.runQuery, if_neg (by simp [hl]), Engine.mem_sort, PgKeyed.matched, List.mem_filter,
      Bool.and_eq_true, matchPredicate_iff rfl]
    exact and_congr_right fun _ => and_iff_left rfl
  simp only [PgSelectStep.entryRows, List.mem_map, List.mem_filter, hr, decide_eq_true_eq]
  constructor
  case mp  =>
    rintro ⟨row, ⟨⟨ht, _, _, hs, _⟩, hl⟩, hp⟩
    exact ⟨row, ht, ⟨hs, hl.symm⟩, hp⟩
  case mpr =>
    rintro ⟨row, ht, ha, hp⟩
    exact ⟨row, ⟨⟨ht, key, hk, ha⟩, ha.right.symm⟩, hp⟩

-- Where the parents keep their keys, the statement of a bucket matches the same rows.
theorem matched_eq (hm : step.matchColumns = relation.remoteColumns)
    (h : ∀ parent ∈ parents, relation.Keeps resource table parent) :
    step.matched table (coalesceKeys (step.normalizedKeys (parents.map (relation.decodedKey resource)))).fst =
      step.matched table (coalesceKeys (step.normalizedKeys (parents.map (relation.rawKey resource)))).fst := by
  refine List.filter_congr fun row hrow => congrArg (· && step.passes row) ?_
  rw [Bool.eq_iff_iff, matchPredicate_iff hm, matchPredicate_iff hm]
  simp only [List.mem_map, exists_exists_and_eq_and]
  refine exists_congr fun parent => and_congr_right fun hp => ?_
  rcases h parent hp with hk | hk
  · rw [Addresses, Addresses, hk]
  · exact iff_of_false (hk row hrow).left (hk row hrow).right

theorem entryRows_eq (hm : step.matchColumns = relation.remoteColumns)
    (h : ∀ parent ∈ parents, relation.Keeps resource table parent)
    {parent : Option (C → Option V)} (hp : parent ∈ parents) :
    step.entryRows e table sourceValues (parents.map (relation.decodedKey resource))
        (relation.decodedKey resource parent) =
      step.entryRows e table sourceValues (parents.map (relation.rawKey resource))
        (relation.rawKey resource parent) := by
  have hr : step.runQuery e table
      (coalesceKeys (step.normalizedKeys (parents.map (relation.decodedKey resource)))).fst sourceValues =
        step.runQuery e table
          (coalesceKeys (step.normalizedKeys (parents.map (relation.rawKey resource)))).fst sourceValues := by
    rw [PgSelectStep.runQuery, PgSelectStep.runQuery, matched_eq hm h]
  rw [PgSelectStep.entryRows, PgSelectStep.entryRows, hr]
  refine congrArg (List.map step.present) (List.filter_congr fun row hrow => decide_eq_decide.mpr ?_)
  rcases h parent hp with hk | hk
  · rw [lookupKey, lookupKey, ← hm] at hk
    rw [PgKeyed.isComposite, hk]
  · have hmem := List.mem_filter.mp (PgSelectStep.mem_runQuery hrow)
    obtain ⟨hd, hw⟩ := hk row hmem.left
    have hs : (relation.remoteColumns.map row).all (·.isSome) = true := by
      rw [← hm]
      exact (PgKeyed.matchPredicate_iff.mp (Bool.and_eq_true_iff.mp hmem.right).left).left
    rw [PgKeyed.isComposite, hm]
    exact iff_of_false (fun hl => hd ⟨hs, hl.symm⟩) fun hl => hw ⟨hs, hl.symm⟩

-- A relation shows through the codecs where they leave its keys as they are, and where no row has a key.
theorem transparent_iff (ht : relation.target.Invertible) :
    relation.Transparent resource table parents ↔
      ∀ parent ∈ parents, relation.Keeps resource table parent := by
  constructor
  case mp  =>
    intro h parent hp
    let noValues : SourceValues := ⟨fun _ => none, fun _ => none⟩
    have he := (h relation.selectAll .insertion noValues rfl rfl).left
    rw [PgSelectStep.execute, PgSelectStep.executeWith_entries, PgSelectStep.executeWith_entries,
      List.map_map, List.map_map] at he
    have hr : relation.selectAll.entryRows .insertion table noValues
        (parents.map (relation.decodedKey resource)) (relation.decodedKey resource parent) =
          relation.selectAll.entryRows .insertion table noValues
            (parents.map (relation.rawKey resource)) (relation.rawKey resource parent) :=
      List.map_inj_left.mp he parent hp
    have hd := List.mem_map_of_mem (f := relation.decodedKey resource) hp
    have hw := List.mem_map_of_mem (f := relation.rawKey resource) hp
    refine or_iff_not_imp_left.mpr fun hk row hrow => ⟨fun ha => hk ?_, fun ha => hk ?_⟩
    · have hm := (mem_entryRows_selectAll .insertion noValues hd).mpr ⟨row, hrow, ha, rfl⟩
      rw [hr, mem_entryRows_selectAll .insertion noValues hw] at hm
      obtain ⟨row', _, ha', hp⟩ := hm
      obtain rfl := ht.decodeRow_inj hp
      exact ha.right.trans ha'.right.symm
    · have hm := (mem_entryRows_selectAll .insertion noValues hw).mpr ⟨row, hrow, ha, rfl⟩
      rw [← hr, mem_entryRows_selectAll .insertion noValues hd] at hm
      obtain ⟨row', _, ha', hp⟩ := hm
      obtain rfl := ht.decodeRow_inj hp
      exact ha'.right.trans ha.right.symm
  case mpr =>
    intro h step e sourceValues _ hm
    constructor
    · rw [PgSelectStep.execute, PgSelectStep.executeWith_entries, PgSelectStep.executeWith_entries,
        List.map_map, List.map_map]
      exact List.map_congr_left fun parent hp => congrArg id (entryRows_eq hm h hp)
    · rw [PgSelectSingleStep.execute, PgSelectStep.executeWith_entries, PgSelectStep.executeWith_entries,
        List.map_map, List.map_map]
      exact List.map_congr_left fun parent hp => congrArg List.head? (entryRows_eq hm h hp)

end PgRelation

section Mutation

variable [DecidableEq V]

namespace PgResource

variable {resource : PgResource C A V} {row : C → Option V} {pk pk' : Option V}

-- The primary key of a row that has been decoded.
def decodedKey (resource : PgResource C A V) (row : C → Option V) : Option V :=
  resource.decodeRow (resource.project row) (.inl resource.primaryKey)

-- The codec leaves the primary key as it is, or no row has it either way.
def KeepsKey (resource : PgResource C A V) (table : List (C → Option V)) (row : C → Option V) : Prop :=
  resource.decodedKey row = row resource.primaryKey ∨
    ∀ r ∈ table, resource.hasPrimaryKey (resource.decodedKey row) r = false ∧
      resource.hasPrimaryKey (row resource.primaryKey) r = false

theorem hasPrimaryKey_inj (h : resource.hasPrimaryKey pk row = true)
    (h' : resource.hasPrimaryKey pk' row = true) : pk = pk' := by
  simp only [hasPrimaryKey, Bool.and_eq_true, decide_eq_true_eq] at h h'
  exact h.right.symm.trans h'.right

end PgResource

namespace PgDeleteSingleStep

variable {step : PgDeleteSingleStep C A V} {table : List (C → Option V)} {pk pk' : Option V}

theorem run_eq_iff : step.run ⟨pk⟩ table = step.run ⟨pk'⟩ table ↔ pk = pk' ∨
    ∀ r ∈ table, step.resource.hasPrimaryKey pk r = false ∧ step.resource.hasPrimaryKey pk' r = false := by
  constructor
  case mp  =>
    intro h
    have hf := (Prod.mk.inj h).right
    refine or_iff_not_imp_left.mpr fun hne r hr => ?_
    have hi : step.resource.hasPrimaryKey pk r = true ↔ step.resource.hasPrimaryKey pk' r = true := by
      simpa [hr] using congrArg (r ∈ ·) hf
    cases hk : step.resource.hasPrimaryKey pk r
    case true  => exact absurd (PgResource.hasPrimaryKey_inj hk (hi.mp hk)) hne
    case false => exact ⟨rfl, by simpa [hk] using hi⟩
  case mpr =>
    rintro (rfl | h)
    · rfl
    · have hf : table.filter (step.resource.hasPrimaryKey pk) =
          table.filter (step.resource.hasPrimaryKey pk') :=
        List.filter_congr fun r hr => (h r hr).left.trans (h r hr).right.symm
      have hd : (table.filter fun row => !step.resource.hasPrimaryKey pk row) =
          table.filter fun row => !step.resource.hasPrimaryKey pk' row :=
        List.filter_congr fun r hr => by rw [(h r hr).left, (h r hr).right]
      exact Prod.ext hd hf

end PgDeleteSingleStep

namespace PgUpdateSingleStep

variable [DecidableEq C] {step : PgUpdateSingleStep C A V} {table : List (C → Option V)} {pk pk' : Option V}
variable {values : List (C × Option V)}

-- A row that an update with one key changes alike an update with another key is not changed by either.
theorem not_hasPrimaryKey (hne : pk ≠ pk') (h : step.run ⟨pk, values⟩ table = step.run ⟨pk', values⟩ table)
    {r : C → Option V} (hr : r ∈ table) : step.resource.hasPrimaryKey pk r = false := by
  obtain ⟨ht, hrows⟩ := Prod.mk.inj h
  rw [Bool.eq_false_iff]
  intro hk
  have hk' : step.resource.hasPrimaryKey pk' r ≠ true := fun hk' => hne (PgResource.hasPrimaryKey_inj hk hk')
  have hs : setColumns values r = r := by
    have he := List.map_inj_left.mp ht r hr
    rwa [if_pos hk, if_neg hk'] at he
  have hm : setColumns values r ∈ (table.filter (step.resource.hasPrimaryKey pk')).map (setColumns values) :=
    hrows ▸ List.mem_map_of_mem (List.mem_filter.mpr ⟨hr, hk⟩)
  obtain ⟨s, hsm, hse⟩ := List.mem_map.mp hm
  obtain ⟨hst, hsk⟩ := List.mem_filter.mp hsm
  have hsn : step.resource.hasPrimaryKey pk s ≠ true := fun hsn => hne (PgResource.hasPrimaryKey_inj hsn hsk)
  have he := List.map_inj_left.mp ht s hst
  rw [if_neg hsn, if_pos hsk, hse, hs] at he
  exact hk' (he ▸ hsk)

theorem run_eq_iff : step.run ⟨pk, values⟩ table = step.run ⟨pk', values⟩ table ↔ pk = pk' ∨
    ∀ r ∈ table, step.resource.hasPrimaryKey pk r = false ∧ step.resource.hasPrimaryKey pk' r = false := by
  constructor
  case mp  =>
    intro h
    exact or_iff_not_imp_left.mpr fun hne r hr =>
      ⟨not_hasPrimaryKey hne h hr, not_hasPrimaryKey (Ne.symm hne) h.symm hr⟩
  case mpr =>
    rintro (rfl | h)
    · rfl
    · refine Prod.ext (List.map_congr_left fun r hr => ?_)
        (congrArg (List.map (setColumns values)) (List.filter_congr fun r hr => ?_))
      · rw [(h r hr).left, (h r hr).right]
      · exact (h r hr).left.trans (h r hr).right.symm

end PgUpdateSingleStep

end Mutation

-- Relations, updates and deletes by a decoded key go where the raw key does, as far as the codecs keep keys.
theorem codecs_transparent_iff [LinearOrder V] [DecidableEq C] (relation : PgRelation C A D B V)
    (resource : PgResource C A V) (table : List (C → Option V)) (targets : List (D → Option V))
    (parents : List (Option (C → Option V))) (ht : relation.target.Invertible) :
    (relation.Transparent resource targets parents ↔
      ∀ parent ∈ parents, relation.Keeps resource targets parent) ∧
    (∀ (step : PgUpdateSingleStep C A V) values i statement row, step.resource = resource →
      step.pkForEntry values i = resource.decodedKey row → step.buildStatement values i = .ok statement →
        (step.run statement table = step.run { statement with pk := row resource.primaryKey } table ↔
          resource.KeepsKey table row)) ∧
    (∀ (step : PgDeleteSingleStep C A V) values i row, step.resource = resource →
      step.pkForEntry values i = resource.decodedKey row →
        (step.run (step.buildStatement values i) table = step.run ⟨row resource.primaryKey⟩ table ↔
          resource.KeepsKey table row)) := by
  refine ⟨PgRelation.transparent_iff ht, fun step values i statement row hr hk hb => ?_,
    fun step values i row hr hk => ?_⟩
  · subst hr
    rw [PgUpdateSingleStep.buildStatement] at hb
    split at hb
    case isTrue  => cases hb
    case isFalse =>
      cases hb
      rw [PgUpdateSingleStep.run_eq_iff, hk]
      rfl
  · subst hr
    rw [PgDeleteSingleStep.buildStatement, PgDeleteSingleStep.run_eq_iff, hk]
    rfl

-- Users whose keys are presented by one more than they are, and their posts.
namespace Shifted

inductive UserColumn
  | id
  deriving DecidableEq

inductive PostColumn
  | id
  | author
  deriving DecidableEq

def shift : PgCodec Int where
  toPy       := some (Option.map (· + 1))
  toPg       := some (· - 1)
  sqlType    := none
  jsonStable := none

def users : PgResource UserColumn Empty Int where
  schema        := "public"
  table         := "users"
  primaryKey    := .id
  names         := [.inl .id]
  attributes _  := ⟨some shift, none⟩
  expression    := Empty.elim
  columnTypes _ := none
  optOutInline  := false
  hasCustomizer := false

def posts : PgResource PostColumn Empty Int where
  schema        := "public"
  table         := "posts"
  primaryKey    := .id
  names         := [.inl .id, .inl .author]
  attributes _  := ⟨none, some .integer⟩
  expression    := Empty.elim
  columnTypes _ := none
  optOutInline  := false
  hasCustomizer := false

def user (id : Int) : UserColumn → Option Int
  | .id => some id

def post (id author : Int) : PostColumn → Option Int
  | .id     => some id
  | .author => some author

def authored : PgRelation UserColumn Empty PostColumn Empty Int where
  target               := posts
  localColumns         := [.inl .id]
  remoteColumns        := [.author]
  localColumns_ne      := by simp
  remoteColumns_length := rfl

theorem users_invertible : users.Invertible := by
  intro row name
  change ((row name).map (· + 1)).map (· - 1) = row name
  simp [Option.map_map, Function.comp_def]

theorem posts_invertible : posts.Invertible := fun _ _ => rfl

theorem shift_inverse : ∀ f ∈ shift.toPy, ∀ g ∈ shift.toPg,
    (∀ v, (f v).map g = v) ∧ ∀ v, f (v.map g) = v := by
  simp [shift, Option.map_map, Function.comp_def]

-- The posts of user 7 are looked up by 8.
theorem not_transparent : (users.Invertible ∧ posts.Invertible ∧
    ∀ f ∈ shift.toPy, ∀ g ∈ shift.toPg, (∀ v, (f v).map g = v) ∧ ∀ v, f (v.map g) = v) ∧
      ¬authored.Transparent users [post 1 7] [some (user 7)] := by
  refine ⟨⟨users_invertible, posts_invertible, shift_inverse⟩, fun h => ?_⟩
  have he := (h authored.selectAll .insertion ⟨fun _ => none, fun _ => none⟩ rfl rfl).left
  have hl := congrArg (List.map List.length) he
  exact absurd hl (by decide)

-- A codec that only swaps the keys 1 and 2, and the writes of user 7 under it.
def swap : PgCodec Int where
  toPy       := some (Option.map (Equiv.swap 1 2))
  toPg       := some (Equiv.swap 1 2)
  sqlType    := none
  jsonStable := none

def swapped : PgResource UserColumn Empty Int :=
  { users with attributes := fun _ => ⟨some swap, none⟩ }

def renumber : PgUpdateSingleStep UserColumn Empty Int :=
  ⟨swapped, .literal (some 7), [(.id, .literal (some 9))]⟩

def remove : PgDeleteSingleStep UserColumn Empty Int :=
  ⟨swapped, .literal (some 7)⟩

theorem swapped_keeps : swapped.KeepsKey [user 7, user 1] (user 7) :=
  .inl (by decide)

-- The key 7 is presented as it is: its posts, its update and its delete are those of the raw key.
theorem transparent_swapped :
    authored.Transparent swapped [post 1 7, post 2 1] [some (user 7)] ∧
      renumber.run ⟨some 7, [(.id, some 9)]⟩ [user 7, user 1] =
        renumber.run ⟨user 7 .id, [(.id, some 9)]⟩ [user 7, user 1] ∧
      remove.run (remove.buildStatement [] 0) [user 7, user 1] = remove.run ⟨user 7 .id⟩ [user 7, user 1] := by
  obtain ⟨ht, hu, hd⟩ := codecs_transparent_iff authored swapped [user 7, user 1] [post 1 7, post 2 1]
    [some (user 7)] posts_invertible
  refine ⟨ht.mpr fun parent hp => ?_, ?_, ?_⟩
  · obtain rfl := List.mem_singleton.mp hp
    exact .inl (by decide)
  · exact (hu renumber [] 0 _ (user 7) rfl (by decide) rfl).mpr swapped_keeps
  · exact (hd remove [] 0 (user 7) rfl (by decide)).mpr swapped_keeps

end Shifted

end Grafast
