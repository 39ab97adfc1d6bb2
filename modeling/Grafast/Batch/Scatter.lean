import Grafast.Batch.Traverse

namespace Batch

universe u

variable {α β γ : Type u}

-- The values of a column at some places.
def gather (column : List α) (places : List Nat) : Option (List α) :=
  places.mapM (column[·]?)

-- Writes values at some places.
def scatter (write : α → β → α) (places : List Nat) (values : List β) (base : List α) : List α :=
  (places.zip values).foldl (fun base (i, value) => base.modify i (write · value)) base

-- The places of the elements with a property, where the first element has the place `n`.
def placesFrom (p : α → Bool) (n : Nat) (l : List α) : List Nat :=
  ((l.zipIdx n).filter (p ·.fst)).map (·.snd)

variable {p : α → Bool} {a : α} {l : List α} {n : Nat}

theorem placesFrom_cons :
    placesFrom p n (a :: l) = if p a then n :: placesFrom p (n + 1) l else placesFrom p (n + 1) l := by
  cases h : p a <;> simp [placesFrom, h]

theorem zipIdx_filter_fst : ((l.zipIdx n).filter (p ·.fst)).map (·.fst) = l.filter p := by
  induction l generalizing n
  case nil         => rfl
  case cons a l hi => cases h : p a <;> simp [h, hi]

theorem gather_placesFrom {f : α → β} {b : List β} (hn : b.length = n) :
    gather (b ++ l.map f) (placesFrom p n l) = some ((l.filter p).map f) := by
  induction l generalizing n b
  case nil         => rfl
  case cons a l hi =>
    have hi := hi (n := n + 1) (b := b ++ [f a]) (by simp [hn])
    rw [List.append_assoc, List.singleton_append] at hi
    rw [placesFrom_cons, List.map_cons]
    cases h : p a
    case false => simpa [h] using hi
    case true  =>
      simp only [gather, if_true, List.mapM_cons, List.filter_cons, h] at hi ⊢
      simp [← hn, hn ▸ hi]

-- Reading a column at the places of some elements gives the values of these elements.
theorem gather_places {f : α → β} : gather (l.map f) (placesFrom p 0 l) = some ((l.filter p).map f) :=
  gather_placesFrom (b := []) rfl

theorem modify_append_length {before after : List α} {f : α → α} :
    (before ++ a :: after).modify before.length f = before ++ f a :: after := by
  induction before
  case nil          => rfl
  case cons b l hi => simp [List.modify_succ_cons, hi]

theorem scatter_placesFrom {write : γ → β → γ} {f : α → β} {g : α → γ} {b : List γ}
    (hn : b.length = n) :
    scatter write (placesFrom p n l) ((l.filter p).map f) (b ++ l.map g) =
      b ++ l.map fun a => if p a then write (g a) (f a) else g a := by
  induction l generalizing n b
  case nil         => rfl
  case cons a l hi =>
    rw [placesFrom_cons, List.map_cons, List.map_cons]
    cases h : p a
    case false =>
      have hi := hi (n := n + 1) (b := b ++ [g a]) (by simp [hn])
      simpa [h] using hi
    case true =>
      have hi := hi (n := n + 1) (b := b ++ [write (g a) (f a)]) (by simp [hn])
      simp only [scatter, if_true, List.filter_cons, h, List.map_cons, List.zip_cons_cons,
        List.foldl_cons] at hi ⊢
      rw [← hn, modify_append_length, hn]
      simpa using hi

-- Writing values at the places of some elements changes the entries of these elements.
theorem scatter_places {write : γ → β → γ} {f : α → β} {g : α → γ} :
    scatter write (placesFrom p 0 l) ((l.filter p).map f) (l.map g) =
      l.map fun a => if p a then write (g a) (f a) else g a :=
  scatter_placesFrom (b := []) rfl

theorem placesFrom_map {f : β → α} {l : List β} :
    placesFrom p n (l.map f) = placesFrom (p <| f ·) n l := by
  induction l generalizing n
  case nil         => rfl
  case cons a l hi => simp only [List.map_cons, placesFrom_cons, hi]

theorem placesFrom_eq_nil_iff : placesFrom p n l = [] ↔ l.filter p = [] := by
  rw [← zipIdx_filter_fst (n := n), placesFrom, List.map_eq_nil_iff, List.map_eq_nil_iff]

theorem scatter_cons {write : γ → β → γ} {before : List γ} {places : List Nat} {c : γ} {v : β}
    {values : List β} {after : List γ} :
    scatter write (before.length :: places) (v :: values) (before ++ c :: after) =
      scatter write places values (before ++ write c v :: after) := by
  simp only [scatter, List.zip_cons_cons, List.foldl_cons, modify_append_length]

theorem mapM_scatter_from {write : γ → β → γ} {f : α → Option β} {g : α → γ} {b : List γ}
    (hn : b.length = n) :
    (l.mapM fun a => if p a then (f a).map (write (g a)) else some (g a)).map (b ++ ·) =
      ((l.filter p).mapM f).map fun values =>
        scatter write (placesFrom p n l) values (b ++ l.map g) := by
  induction l generalizing n b
  case nil         => simp [placesFrom, scatter]
  case cons a l hi =>
    cases h : p a
    case false =>
      have hi := hi (n := n + 1) (b := b ++ [g a]) (by simp [hn])
      simp only [List.append_assoc, List.singleton_append] at hi
      rw [mapM_cons, placesFrom_cons, List.filter_cons_of_neg (by simp [h]), List.map_cons, h]
      simpa [Option.map_map, Function.comp_def] using hi
    case true =>
      cases hf : f a
      case none   => simp [h, hf]
      case some v =>
        have hi := hi (n := n + 1) (b := b ++ [write (g a) v]) (by simp [hn])
        have hc (values : List β) : scatter write (n :: placesFrom p (n + 1) l) (v :: values)
            (b ++ g a :: l.map g) = scatter write (placesFrom p (n + 1) l) values
              (b ++ write (g a) v :: l.map g) := hn ▸ scatter_cons
        simp only [List.append_assoc, List.singleton_append] at hi
        rw [mapM_cons, placesFrom_cons, List.filter_cons_of_pos h, List.map_cons, mapM_cons, hf, h]
        simpa [Option.map_map, Function.comp_def, hc] using hi

-- A pass over the elements with a property, scattered into the entries of all elements, is one pass
-- over all elements.
theorem mapM_scatter (write : γ → β → γ) {f : α → Option β} {g : α → γ} :
    (l.mapM fun a => if p a then (f a).map (write (g a)) else some (g a)) =
      ((l.filter p).mapM f).map fun values => scatter write (placesFrom p 0 l) values (l.map g) := by
  simpa using mapM_scatter_from (b := ([] : List γ)) (g := g) (f := f) (p := p) (l := l) rfl

section Group

variable {κ : Type u} [DecidableEq κ]

-- Adds a member to the group of its key, which is new if it has no members yet.
def addToGroup (groups : List (κ × List α)) (member : κ × α) : List (κ × List α) :=
  if groups.any (·.fst = member.fst) then
    groups.map fun (key, members) =>
      if key = member.fst then (key, members ++ [member.snd]) else (key, members)
  else
    groups ++ [(member.fst, [member.snd])]

-- The groups of a list, by the keys of its members.
structure Grouped (l : List (κ × α)) (groups : List (κ × List α)) : Prop where
  nodup   : (groups.map (·.fst)).Nodup
  members : ∀ g ∈ groups, g.snd = (l.filter (·.fst = g.fst)).map (·.snd)
  key_mem : ∀ k, k ∈ groups.map (·.fst) ↔ k ∈ l.map (·.fst)

variable {l : List (κ × α)} {groups : List (κ × List α)} {x : κ × α}

theorem addToGroup_cons_of_ne {g : κ × List α} (h : g.fst ≠ x.fst) :
    addToGroup (g :: groups) x = g :: addToGroup groups x := by
  simp only [addToGroup, List.any_cons, h, decide_false, Bool.false_or, List.map_cons, if_false]
  split
  case isTrue  => rfl
  case isFalse => rfl

theorem addToGroup_cons_of_eq {g : κ × List α} (h : g.fst = x.fst) (hn : x.fst ∉ groups.map (·.fst)) :
    addToGroup (g :: groups) x = (g.fst, g.snd ++ [x.snd]) :: groups := by
  have hg : groups.map (fun (key, members) =>
      if key = x.fst then (key, members ++ [x.snd]) else (key, members)) = groups := by
    conv_rhs => rw [← List.map_id groups]
    exact List.map_congr_left fun g hg => if_neg fun he : g.fst = x.fst => hn (he ▸ List.mem_map_of_mem hg)
  rw [addToGroup, if_pos (by simp [h]), List.map_cons, hg]
  simp [h]

theorem Grouped.add (h : Grouped l groups) : Grouped (l ++ [x]) (addToGroup groups x) := by
  have hany : groups.any (·.fst = x.fst) = true ↔ x.fst ∈ groups.map (·.fst) := by
    rw [List.any_eq_true, List.mem_map]
    simp only [decide_eq_true_eq]
  unfold addToGroup
  split
  case isTrue hx =>
    have hk : (groups.map fun (key, members) =>
        if key = x.fst then (key, members ++ [x.snd]) else (key, members)).map (·.fst) =
          groups.map (·.fst) := by
      rw [List.map_map]
      exact List.map_congr_left fun g _ => by by_cases hg : g.fst = x.fst <;> simp [hg]
    refine ⟨hk ▸ h.nodup, fun g hg => ?_, fun k => ?_⟩
    · obtain ⟨⟨key, members⟩, hm, rfl⟩ := List.mem_map.mp hg
      have hs : members = (l.filter (·.fst = key)).map (·.snd) := h.members _ hm
      by_cases hg : key = x.fst
      case pos => simp [hs, hg]
      case neg => simp [hs, hg, Ne.symm hg]
    · rw [hk, h.key_mem, List.map_append, List.mem_append]
      refine ⟨.inl, fun hm => hm.elim id fun hm => ?_⟩
      exact (h.key_mem k).mp (List.mem_singleton.mp hm ▸ hany.mp hx)
  case isFalse hx =>
    have hx : x.fst ∉ groups.map (·.fst) := fun hm => hx (hany.mpr hm)
    refine ⟨?_, fun g hg => ?_, fun k => ?_⟩
    · rw [List.map_append]
      exact List.Nodup.append h.nodup (List.nodup_singleton _) fun k hk hk' => by
        obtain rfl : k = x.fst := List.mem_singleton.mp hk'
        exact hx hk
    · cases List.mem_append.mp hg
      case inl hg =>
        have hne : x.fst ≠ g.fst := fun he => hx (he ▸ List.mem_map_of_mem hg)
        simp [h.members g hg, hne]
      case inr hg =>
        obtain rfl := List.mem_singleton.mp hg
        have hn : l.filter (·.fst = x.fst) = [] := by
          rw [List.filter_eq_nil_iff]
          intro y hy he
          exact hx ((h.key_mem _).mpr (by simpa using ⟨y.snd, of_decide_eq_true he ▸ hy⟩))
        simp [hn]
    · simp [h.key_mem]

theorem grouped (l : List (κ × α)) : Grouped l (l.foldl addToGroup []) := by
  have hg (m l : List (κ × α)) (groups : List (κ × List α)) (h : Grouped m groups) :
      Grouped (m ++ l) (l.foldl addToGroup groups) := by
    induction l generalizing m groups
    case nil         => simpa using h
    case cons x l hi => simpa using hi (m ++ [x]) _ h.add
  exact hg [] l [] ⟨List.nodup_nil, by simp, by simp⟩

omit [DecidableEq κ] in
theorem lookup_map [BEq κ] {m : List (κ × α)} {f : α → β} {k : κ} :
    (m.map fun x => (x.fst, f x.snd)).lookup k = (m.lookup k).map f := by
  induction m
  case nil         => rfl
  case cons x m hi =>
    rw [List.map_cons, List.lookup_cons, hi]
    obtain ⟨key, a⟩ := x
    cases hk : k == key <;> simp [List.lookup_cons, hk]

-- The group of a key, which is empty if there is none.
theorem lookup_grouped [BEq κ] [LawfulBEq κ] {k : κ} :
    ((l.foldl addToGroup []).lookup k).getD [] = (l.filter (·.fst = k)).map (·.snd) := by
  have hg := grouped l
  cases hl : (l.foldl addToGroup []).lookup k
  case some members =>
    obtain ⟨g, hm, hk, rfl⟩ : ∃ g ∈ l.foldl addToGroup [], g.fst = k ∧ g.snd = members := by
      obtain ⟨before, after, he, _⟩ := List.lookup_eq_some_iff.mp hl
      exact ⟨(k, members), he ▸ List.mem_append_right _ (.head _), rfl, rfl⟩
    exact hk ▸ hg.members g hm
  case none =>
    have hk : k ∉ l.map (·.fst) := by
      rw [← hg.key_mem k]
      intro hm
      obtain ⟨g, hm, hk⟩ := List.mem_map.mp hm
      exact absurd (List.lookup_eq_none_iff.mp hl g hm) (by simp [hk])
    have hn : l.filter (·.fst = k) = [] := by
      rw [List.filter_eq_nil_iff]
      intro x hx he
      exact hk (of_decide_eq_true he ▸ List.mem_map_of_mem hx)
    rw [hn]
    rfl

end Group

end Batch
