import Grafast.Incremental.Streamed
import Grafast.Execute.Theorems.StreamItem

namespace Grafast.Streaming

variable {V : Type}

section Drain

-- What is drained of the items themselves, in the order in which the queue yields them.
def drainItems : List (Arriving V) → Accumulated V → List (StreamBatch V)
  | [],                         _     => []
  | (arrival, result) :: items, batch =>
    let flushed := if arrival = .pending then batch.flush else []
    let batch := if arrival = .pending then .empty else batch
    match result with
    | .raised                            => flushed
    | .item none errors _                => flushed ++ batch.flush ++ [.done errors]
    | .item (some data) errors children => flushed ++ drainItems items (batch.add data errors children)

theorem drainQueue_items {items : List (Arriving V)} {batch : Accumulated V} {fuel : Nat}
    (h : items.length ≤ fuel) : drainQueue fuel (items.map .item) batch = drainItems items batch := by
  induction items generalizing batch fuel
  case nil             => cases fuel <;> rfl
  case cons item items hi =>
    obtain ⟨arrival, result⟩ := item
    cases fuel
    case zero      => exact absurd h (Nat.not_succ_le_zero _)
    case succ fuel =>
      have hi (batch : Accumulated V) : drainQueue fuel (items.map .item) batch = drainItems items batch :=
        hi (Nat.le_of_succ_le_succ h)
      simp only [List.map_cons, drainQueue, Entry.run, List.append_nil, hi]
      rfl

theorem drainQueue_pull {items : List (Arriving V)} {ending : Arriving V} {batch : Accumulated V} {fuel : Nat}
    (h : items.length < fuel) :
    drainQueue fuel [.pull items ending] batch = drainItems (items ++ [ending]) batch := by
  induction items generalizing batch fuel
  case nil =>
    obtain ⟨arrival, result⟩ := ending
    cases fuel
    case zero      => exact absurd h (Nat.not_lt_zero _)
    case succ fuel => cases fuel <;> rfl
  case cons item items hi =>
    obtain ⟨arrival, result⟩ := item
    cases fuel
    case zero      => exact absurd h (Nat.not_lt_zero _)
    case succ fuel =>
      have hi (batch : Accumulated V) :
          drainQueue fuel [.pull items ending] batch = drainItems (items ++ [ending]) batch :=
        hi (Nat.lt_of_succ_lt_succ h)
      simp only [drainQueue, Entry.run, List.nil_append, hi]
      rfl

theorem onStreamItems_pull {items : List (Arriving V)} {ending : Arriving V} :
    onStreamItems [.pull items ending] = drainItems (items ++ [ending]) .empty :=
  drainQueue_pull (by simp [queueSize, Entry.size])

theorem onStreamItems_first {early : Bool} {tail : List (Arriving V)} :
    onStreamItems [.first early tail] =
      if early && tail.any raisesAtOnce then [] else drainItems (tail ++ [(.ready, exhausted)]) .empty := by
  cases tail
  case nil            => cases early <;> rfl
  case cons item tail =>
    have hd (batch : Accumulated V) :
        drainQueue (tail.length + 2) (tail.map .item ++ [.item (.ready, exhausted)]) batch =
          drainItems (tail ++ [(.ready, exhausted)]) batch := by
      have hm : tail.map Entry.item ++ [Entry.item (.ready, exhausted)] =
          (tail ++ [(Arrival.ready, exhausted)]).map Entry.item := by simp
      rw [hm]
      exact drainQueue_items (by simp)
    obtain ⟨arrival, result⟩ := item
    show drainQueue (tail.length + 3) _ _ = _
    rw [drainQueue, Entry.run, firstExecutor]
    cases early && ((arrival, result) :: tail).any raisesAtOnce
    case true  => rfl
    case false =>
      simp only [Bool.false_eq_true, if_false, List.nil_append, hd]
      rfl

end Drain

section Items

-- What the stream makes of the outcome of an item.
def ItemOf (itemIsNonNull : Bool) (outcome : Option (Completed V)) (item : StreamItem V) : Prop :=
  match outcome with
  | none                 => item = .raised
  | some (.value data)   => ∃ errors children, item = .item (some data) errors children
  | some (.bubble error) =>
    if itemIsNonNull then item = .item none [error] []
    else ∃ errors children, item = .item (some .null) errors children

variable {nn safe : Bool} {os : List (Option (Completed V))} {items : List (Arriving V)}
  {ending : Arriving V} {es : List (LocatedError V)}

-- The batches of which a flush is a part.
def sent (batches : List (StreamBatch V)) (results : List (List (Data V) × List (LocatedError V))) : Prop :=
  batches.map handleStreamBatch = results.map fun r => .incremental r.fst r.snd

-- A flush sends what has been accumulated.
theorem Accumulated.flush_sent (batch : Accumulated V) :
    ∃ rs, sent batch.flush rs ∧ rs.flatMap (·.fst) = batch.items := by
  unfold flush
  cases h : batch.items
  case nil       => exact ⟨[], rfl, rfl⟩
  case cons d ds => exact ⟨[(d :: ds, batch.errors)], rfl, List.append_nil _⟩

-- The flush before a pending item, with what is accumulated from there on.
theorem flush_pending (arrival : Arrival) (batch : Accumulated V) :
    ∃ rs, sent (if arrival = .pending then batch.flush else []) rs ∧
      rs.flatMap (·.fst) ++ (if arrival = .pending then .empty else batch : Accumulated V).items = batch.items := by
  by_cases h : arrival = .pending
  case pos =>
    obtain ⟨rs, hs, hr⟩ := batch.flush_sent
    simp only [h, if_true]
    exact ⟨rs, hs, by rw [hr]; exact List.append_nil _⟩
  case neg =>
    simp only [h, if_false]
    exact ⟨[], rfl, rfl⟩

-- The stream from some item on, when some items have been accumulated.
def StreamsFrom (nn : Bool) (os : List (Option (Completed V))) (es : List (LocatedError V))
    (before : List (Data V)) (results : List (StreamResult V)) : Prop :=
  ∃ (batches : List (List (Data V) × List (LocatedError V))) (errors : List (LocatedError V)) (ds : List (Data V)),
    results = batches.map (fun batch => .incremental batch.fst batch.snd) ++ [.completed errors] ∧
      batches.flatMap (·.fst) = before ++ ds ∧ Delivery nn es os ds errors

namespace StreamsFrom

variable {o : Option (Completed V)} {before : List (Data V)} {bs : List (StreamBatch V)}

theorem prepend {rs : List (List (Data V) × List (LocatedError V))} {flushed : List (StreamBatch V)}
    {rest : List (Data V)} (hf : sent flushed rs) (hr : rs.flatMap (·.fst) ++ rest = before)
    (h : StreamsFrom nn os es rest (bs.map handleStreamBatch)) :
    StreamsFrom nn os es before ((flushed ++ bs).map handleStreamBatch) := by
  obtain ⟨batches, errors, ds, hb, hi, hd⟩ := h
  refine ⟨rs ++ batches, errors, ds, ?_, ?_, hd⟩
  · rw [List.map_append, hf, hb, List.map_append, List.append_assoc]
  · rw [List.flatMap_append, hi, ← List.append_assoc, hr]

theorem cons {d : Data V} {results : List (StreamResult V)}
    (hd : ∀ {ds errors}, Delivery nn es os ds errors → Delivery nn es (o :: os) (d :: ds) errors)
    (h : StreamsFrom nn os es (before ++ [d]) results) : StreamsFrom nn (o :: os) es before results := by
  obtain ⟨batches, errors, ds, hb, hi, h⟩ := h
  exact ⟨batches, errors, d :: ds, hb, by simpa using hi, hd h⟩

theorem done (batch : Accumulated V) {errors : List (LocatedError V)} (h : Delivery nn es os [] errors) :
    StreamsFrom nn os es batch.items ((batch.flush ++ [StreamBatch.done errors]).map handleStreamBatch) := by
  obtain ⟨rs, hs, hr⟩ := batch.flush_sent
  refine ⟨rs, errors, [], ?_, by rw [hr, List.append_nil], h⟩
  rw [List.map_append, hs]
  rfl

end StreamsFrom

-- What is drained from a result on.
def drainFrom (items : List (Arriving V)) (batch : Accumulated V) : StreamItem V → List (StreamBatch V)
  | .raised                            => []
  | .item none errors _                => batch.flush ++ [.done errors]
  | .item (some data) errors children => drainItems items (batch.add data errors children)

-- One step of the drain: a flush, and then what comes of the result.
theorem drainItems_cons {arrival : Arrival} {result : StreamItem V} (items : List (Arriving V))
    (batch : Accumulated V) : ∃ (flushed : List (StreamBatch V)) (rest : Accumulated V),
      (∃ rs, sent flushed rs ∧ rs.flatMap (·.fst) ++ rest.items = batch.items) ∧
        drainItems ((arrival, result) :: items) batch = flushed ++ drainFrom items rest result := by
  refine ⟨_, _, flush_pending arrival batch, ?_⟩
  cases result
  case raised                    => simp [drainItems, drainFrom]
  case item data errors children => cases data <;> simp [drainItems, drainFrom]

theorem drainItems_streams (h : List.Forall₂ (fun o item => ItemOf nn o item.snd) os items)
    (he : safe → ending.snd = .item none es []) (hs : ItemsSafe nn safe os) (batch : Accumulated V) :
    StreamsFrom nn os es batch.items ((drainItems (items ++ [ending]) batch).map handleStreamBatch) := by
  induction h generalizing batch
  case nil =>
    obtain ⟨arrival, result⟩ := ending
    obtain rfl : result = .item none es [] := he hs
    obtain ⟨flushed, rest, ⟨rs, hf, hr⟩, hd⟩ := drainItems_cons [] batch
    rw [List.nil_append, hd]
    exact .prepend hf hr (.done rest .ended)
  case cons o item os items ho _ hi =>
    obtain ⟨arrival, result⟩ := item
    obtain ⟨flushed, rest, ⟨rs, hf, hr⟩, hd⟩ := drainItems_cons (items ++ [ending]) batch
    rw [List.cons_append, hd]
    refine .prepend hf hr ?_
    rcases o with _ | data | error
    case none  => exact hs.elim
    case value =>
      obtain ⟨errors, children, rfl⟩ := ho
      exact .cons .value (hi hs _)
    case bubble =>
      cases nn
      case true =>
        obtain rfl : result = .item none [error] [] := ho
        exact .done rest (.failed rfl fun _ h => (Option.some.inj h).symm)
      case false =>
        obtain ⟨errors, children, rfl⟩ := ho
        exact .cons (.nulled rfl fun _ h => (Option.some.inj h).symm) (hi (hs.resolve_left nofun) _)

-- A stream with an item that raises before it has ended is never completed.
theorem drainItems_not_done (h : List.Forall₂ (fun o item => ItemOf nn o item.snd) os items)
    (he : safe = false → ending.snd = .raised) (hs : ¬ItemsSafe nn safe os) (batch : Accumulated V)
    (errors : List (LocatedError V)) : StreamBatch.done errors ∉ drainItems (items ++ [ending]) batch := by
  have hn (flushed : List (StreamBatch V)) (rs : List (List (Data V) × List (LocatedError V)))
      (hf : sent flushed rs) : StreamBatch.done errors ∉ flushed := by
    intro hm
    have hm : handleStreamBatch (.done errors) ∈ flushed.map handleStreamBatch := List.mem_map_of_mem hm
    rw [hf] at hm
    obtain ⟨_, _, h⟩ := List.mem_map.mp hm
    cases h
  induction h generalizing batch
  case nil =>
    obtain ⟨arrival, result⟩ := ending
    obtain rfl : result = .raised := he (Bool.eq_false_iff.mpr hs)
    obtain ⟨flushed, rest, ⟨rs, hf, _⟩, hd⟩ := drainItems_cons [] batch
    rw [List.nil_append, hd, drainFrom, List.append_nil]
    exact hn flushed rs hf
  case cons o item os items ho _ hi =>
    obtain ⟨arrival, result⟩ := item
    obtain ⟨flushed, rest, ⟨rs, hf, _⟩, hd⟩ := drainItems_cons (items ++ [ending]) batch
    rw [List.cons_append, hd, List.mem_append, not_or]
    refine ⟨hn flushed rs hf, ?_⟩
    rcases o with _ | data | error
    case none  =>
      obtain rfl : result = .raised := ho
      exact List.not_mem_nil
    case value =>
      obtain ⟨_, _, rfl⟩ := ho
      exact hi hs _
    case bubble =>
      cases nn
      case true  => exact absurd (.inl rfl) hs
      case false =>
        obtain ⟨_, _, rfl⟩ := ho
        exact hi (fun h => hs (.inr h)) _

theorem StreamsFrom.streams {results : List (StreamResult V)} (h : StreamsFrom nn os es [] results) :
    Streams nn os es results := by
  obtain ⟨batches, errors, ds, hb, hi, hd⟩ := h
  exact ⟨batches, errors, hb, hi ▸ hd⟩

theorem Streams.done_mem {bs : List (StreamBatch V)} (h : Streams nn os es (bs.map handleStreamBatch)) :
    ∃ errors, StreamBatch.done errors ∈ bs := by
  obtain ⟨batches, errors, hb, _⟩ := h
  have hm : StreamResult.completed errors ∈ bs.map handleStreamBatch := by
    rw [hb]
    exact List.mem_append_right _ (.head _)
  obtain ⟨b, hm, hb⟩ := List.mem_map.mp hm
  cases b
  case items => cases hb
  case done  => exact ⟨_, hm⟩

-- The drain delivers the items if and only if none raises before the stream has ended.
theorem drainItems_iff (safe : Bool) (ending : Arriving V)
    (h : List.Forall₂ (fun o item => ItemOf nn o item.snd) os items)
    (he : ending.snd = if safe then .item none es [] else .raised) :
    Streams nn os es ((drainItems (items ++ [ending]) .empty).map handleStreamBatch) ↔ ItemsSafe nn safe os := by
  constructor
  case mp =>
    intro hs
    by_contra hn
    obtain ⟨errors, hm⟩ := hs.done_mem
    exact drainItems_not_done h (fun hs => by rw [he, hs]; rfl) hn _ errors hm
  case mpr =>
    intro hs
    exact (drainItems_streams h (fun hs => by rw [he, hs]; rfl) hs .empty).streams

end Items

end Grafast.Streaming
