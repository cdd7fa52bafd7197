import Diem.Theory.Maps
import Diem.Theory.Runs
import Mathlib.Data.PNat.Basic
import Mathlib.Algebra.BigOperators.Group.Multiset.Basic
import Mathlib.Tactic.Abel

/-!
# Per-key message queues

`PerKeyQueue` of `common/channel/src/message_queues.rs`: a bounded queue of
messages for each key, and a round-robin queue of the keys with pending
messages, from which `pop` serves one message of each key in turn.

`per_key_queue` is an `AList` from keys to lists, `round_robin_queue` a list of
keys and `max_queue_size` a positive number. A key without a queue behaves as a
key with an empty one (`keyQueue`), as `entry(..).or_insert_with` and
`pop_from_key_queue` treat it. The counters are left out. The reference model
(`RoundRobin`) says what the queue is for: a list of the keys with pending
messages, each with its messages, served in turn.

Every request keeps `Represents`, the same round-robin order and the same
pending messages per key, and gets the same answer from both
(`step_represents`). So the queue refines the reference model
(**`outputs_eq_roundRobin`**), and along every run its round-robin queue lists
each key with pending messages exactly once (`Represents.wellFormed`). No key
ever holds more than `max_queue_size` messages (`length_keyQueue_le`), and the
pushed messages are those returned, discarded by `clear`, or still pending,
each exactly once (`conservation`).
-/

namespace Diem.Channel

/-- `QueueStyle`: which message a full queue drops, and which `pop` takes. -/
inductive QueueStyle where
  | FIFO
  | LIFO
  | KLAST
  deriving DecidableEq, Repr

/-- `POPS_PER_GC`: empty per-key queues are removed every this many pops. -/
def POPS_PER_GC : ℕ := 50

/-- `PerKeyQueue`, without its counters. -/
structure PerKeyQueue (K : Type*) [DecidableEq K] (T : Type*) where
  /-- `queue_style`. -/
  queueStyle : QueueStyle
  /-- `per_key_queue`: the messages of each key. -/
  perKeyQueue : AList fun _ : K => List T
  /-- `round_robin_queue`: the keys with pending messages. -/
  roundRobinQueue : List K
  /-- `max_queue_size`. -/
  maxQueueSize : ℕ+
  /-- `num_popped_since_gc`. -/
  numPoppedSinceGc : ℕ

namespace PerKeyQueue

variable {K T : Type*} [DecidableEq K]

/-- `new`. -/
def new (queueStyle : QueueStyle) (maxQueueSizePerKey : ℕ+) : PerKeyQueue K T :=
  ⟨queueStyle, ∅, [], maxQueueSizePerKey, 0⟩

/-- The queue of `key`; a key without one has the empty queue. -/
def keyQueue (q : PerKeyQueue K T) (key : K) : List T := (q.perKeyQueue.lookup key).getD []

/-- `pop_front` or `pop_back` of a key's queue, as the style says. -/
def popMessage (queueStyle : QueueStyle) (dq : List T) : Option T × List T :=
  match queueStyle with
  | .FIFO | .KLAST => (dq.head?, dq.tail)
  | .LIFO => (dq.getLast?, dq.dropLast)

/-- `pop_from_key_queue`: a message of `key`, and whether its queue is then
empty. -/
def popFromKeyQueue (q : PerKeyQueue K T) (key : K) : (Option T × Bool) × PerKeyQueue K T :=
  match q.perKeyQueue.lookup key with
  | some dq =>
    let (retval, dq) := popMessage q.queueStyle dq
    ((retval, dq.isEmpty), { q with perKeyQueue := q.perKeyQueue.insert key dq })
  | none => ((none, true), q)

/-- `push`: the message dropped, if any. -/
def push (q : PerKeyQueue K T) (key : K) (message : T) : Option T × PerKeyQueue K T :=
  -- `entry(key).or_insert_with(..)`
  let keyMessageQueue := q.keyQueue key
  let roundRobinQueue := if keyMessageQueue.isEmpty then q.roundRobinQueue ++ [key] else q.roundRobinQueue
  if keyMessageQueue.length ≥ q.maxQueueSize then
    match q.queueStyle with
    | .FIFO => (some message, { q with perKeyQueue := q.perKeyQueue.insert key keyMessageQueue, roundRobinQueue })
    | .LIFO | .KLAST =>
      (keyMessageQueue.head?,
        { q with perKeyQueue := q.perKeyQueue.insert key (keyMessageQueue.tail ++ [message]), roundRobinQueue })
  else (none, { q with perKeyQueue := q.perKeyQueue.insert key (keyMessageQueue ++ [message]), roundRobinQueue })

/-- `remove_empty_queues`. -/
def removeEmptyQueues (q : PerKeyQueue K T) : PerKeyQueue K T :=
  { q with perKeyQueue := q.perKeyQueue.retain fun _ queue => !queue.isEmpty }

/-- `pop`: a message of the first key of the round-robin queue, which goes to
the back if it has more. -/
def pop (q : PerKeyQueue K T) : Option T × PerKeyQueue K T :=
  match q.roundRobinQueue with
  | [] => (none, q)
  | key :: roundRobinQueue =>
    let ((message, isQEmpty), q) := { q with roundRobinQueue }.popFromKeyQueue key
    let q := if !isQEmpty then { q with roundRobinQueue := q.roundRobinQueue ++ [key] } else q
    if message.isSome then
      let q := { q with numPoppedSinceGc := q.numPoppedSinceGc + 1 }
      if q.numPoppedSinceGc ≥ POPS_PER_GC then (message, { q with numPoppedSinceGc := 0 }.removeEmptyQueues)
      else (message, q)
    else (message, q)

/-- `clear`. -/
def clear (q : PerKeyQueue K T) : PerKeyQueue K T := { q with perKeyQueue := ∅, roundRobinQueue := [] }

/-- A call on the queue. -/
inductive Request (K T : Type*) where
  | push (key : K) (message : T)
  | pop
  | clear

/-- Make a call: `push` answers with the message it dropped, `pop` with the
message it took, `clear` with nothing. -/
def step (q : PerKeyQueue K T) : Request K T → Option T × PerKeyQueue K T
  | .push key message => q.push key message
  | .pop => q.pop
  | .clear => (none, q.clear)

/-- The message a request pushes. -/
def Request.pushed : Request K T → Multiset T
  | .push _ message => {message}
  | _ => 0

end PerKeyQueue

/-! ### The reference model -/

namespace RoundRobin

variable {K T : Type*} [DecidableEq K]

/-- The pending messages of `k`, none when `k` is not listed. -/
def pendingOf (s : List (K × List T)) (k : K) : List T := ((s.find? fun e => e.1 = k).map Prod.snd).getD []

/-- The pending messages of `k` set to `ms`. -/
def setPending (s : List (K × List T)) (k : K) (ms : List T) : List (K × List T) :=
  s.map fun e => if e.1 = k then (e.1, ms) else e

/-- `push k m`: a key without pending messages joins the back of the order; a
key with fewer than `max` gets `m` at the back of its messages; otherwise
FIFO drops `m`, and LIFO and KLAST drop the oldest message of `k` for `m`. -/
def push (style : QueueStyle) (max : ℕ+) (s : List (K × List T)) (k : K) (m : T) :
    Option T × List (K × List T) :=
  let ms := pendingOf s k
  if ms = [] then (none, s ++ [(k, [m])])
  else if ms.length < max then (none, setPending s k (ms ++ [m]))
  else match style with
    | .FIFO => (some m, s)
    | .LIFO | .KLAST => (ms.head?, setPending s k (ms.tail ++ [m]))

/-- `pop`: the oldest (FIFO, KLAST) or newest (LIFO) message of the first key,
which moves to the back while it has messages left. -/
def pop (style : QueueStyle) : List (K × List T) → Option T × List (K × List T)
  | [] => (none, [])
  | (k, ms) :: rest =>
    let (m, ms) : Option T × List T := match style with
      | .FIFO | .KLAST => (ms.head?, ms.tail)
      | .LIFO => (ms.getLast?, ms.dropLast)
    (m, if ms = [] then rest else rest ++ [(k, ms)])

/-- A call on the reference model. -/
def step (style : QueueStyle) (max : ℕ+) (s : List (K × List T)) :
    PerKeyQueue.Request K T → Option T × List (K × List T)
  | .push k m => push style max s k m
  | .pop => pop style s
  | .clear => (none, [])

/-- A reference state lists each key once, with pending messages. -/
structure WellFormed (s : List (K × List T)) : Prop where
  /-- No key is listed twice. -/
  nodup : (s.map Prod.fst).Nodup
  /-- Every listed key has pending messages. -/
  ne_nil : ∀ e ∈ s, e.2 ≠ []

@[simp] theorem pendingOf_nil (k : K) : pendingOf ([] : List (K × List T)) k = [] := rfl

theorem pendingOf_cons (k' : K) (ms : List T) (s : List (K × List T)) (k : K) :
    pendingOf ((k', ms) :: s) k = if k' = k then ms else pendingOf s k := by
  by_cases h : k' = k <;> simp [pendingOf, h]

theorem pendingOf_of_notMem {s : List (K × List T)} {k : K} (h : k ∉ s.map Prod.fst) : pendingOf s k = [] := by
  induction s with
  | nil => rfl
  | cons e s ih =>
    obtain ⟨k', ms⟩ := e
    simp only [List.map_cons, List.mem_cons, not_or] at h
    rw [pendingOf_cons, if_neg (Ne.symm h.1), ih h.2]

theorem pendingOf_append_singleton (s : List (K × List T)) (k' : K) (ms : List T) (k : K) :
    pendingOf (s ++ [(k', ms)]) k = if k ∈ s.map Prod.fst then pendingOf s k else if k' = k then ms else [] := by
  induction s with
  | nil => simp [pendingOf_cons]
  | cons e s ih =>
    obtain ⟨j, l⟩ := e
    rw [List.cons_append, pendingOf_cons, pendingOf_cons, ih]
    by_cases hj : j = k
    · simp [hj]
    · have hmem : k ∈ ((j, l) :: s).map Prod.fst ↔ k ∈ s.map Prod.fst := by simp [Ne.symm hj]
      simp only [if_neg hj, hmem]

theorem pendingOf_of_mem {s : List (K × List T)} (hnd : (s.map Prod.fst).Nodup) {k : K} {ms : List T}
    (h : (k, ms) ∈ s) : pendingOf s k = ms := by
  induction s with
  | nil => cases h
  | cons e s ih =>
    obtain ⟨j, l⟩ := e
    rw [List.map_cons, List.nodup_cons] at hnd
    rw [pendingOf_cons]
    rcases List.mem_cons.1 h with h | h
    · obtain ⟨rfl, rfl⟩ := Prod.mk.inj h
      rw [if_pos rfl]
    · have hjk : j ≠ k := fun hjk => hnd.1 (hjk ▸ List.mem_map.2 ⟨_, h, rfl⟩)
      rw [if_neg hjk, ih hnd.2 h]

theorem WellFormed.pendingOf_eq_nil_iff {s : List (K × List T)} (hwf : WellFormed s) {k : K} :
    pendingOf s k = [] ↔ k ∉ s.map Prod.fst := by
  refine ⟨fun h hk => ?_, pendingOf_of_notMem⟩
  obtain ⟨⟨j, ms⟩, hmem, rfl⟩ := List.mem_map.1 hk
  exact hwf.ne_nil _ hmem (by rw [← pendingOf_of_mem hwf.nodup hmem]; exact h)

theorem keys_setPending (s : List (K × List T)) (k : K) (ms : List T) :
    (setPending s k ms).map Prod.fst = s.map Prod.fst := by
  simp only [setPending, List.map_map]
  refine List.map_congr_left fun e _ => ?_
  by_cases h : e.1 = k <;> simp [h]

theorem pendingOf_setPending (s : List (K × List T)) (k : K) (ms : List T) (j : K) :
    pendingOf (setPending s k ms) j = if j = k ∧ k ∈ s.map Prod.fst then ms else pendingOf s j := by
  induction s with
  | nil => simp [setPending]
  | cons e s ih =>
    obtain ⟨i, l⟩ := e
    have hcons : setPending ((i, l) :: s) k ms = (if i = k then (i, ms) else (i, l)) :: setPending s k ms := rfl
    rw [hcons]
    by_cases hik : i = k
    · subst hik
      by_cases hj : i = j
      · subst hj
        simp [pendingOf_cons]
      · simp [pendingOf_cons, hj, ih, Ne.symm hj]
    · have hmem : k ∈ ((i, l) :: s).map Prod.fst ↔ k ∈ s.map Prod.fst := by simp [Ne.symm hik]
      rw [if_neg hik, pendingOf_cons, pendingOf_cons, ih]
      simp only [hmem]
      by_cases hij : i = j
      · subst hij
        simp [hik]
      · rw [if_neg hij, if_neg hij]

omit [DecidableEq K] in
theorem WellFormed.append_singleton {s : List (K × List T)} (hwf : WellFormed s) {k : K} {ms : List T}
    (hk : k ∉ s.map Prod.fst) (hms : ms ≠ []) : WellFormed (s ++ [(k, ms)]) := by
  refine ⟨?_, fun e he => ?_⟩
  · rw [List.map_append, List.nodup_append]
    exact ⟨hwf.nodup, List.nodup_singleton k, fun a ha b hb hab => hk (by simp_all)⟩
  · rcases List.mem_append.1 he with he | he
    · exact hwf.ne_nil e he
    · rw [List.mem_singleton.1 he]
      exact hms

theorem WellFormed.setPending {s : List (K × List T)} (hwf : WellFormed s) (k : K) {ms : List T}
    (hms : ms ≠ []) : WellFormed (setPending s k ms) := by
  refine ⟨by rw [keys_setPending]; exact hwf.nodup, fun e he => ?_⟩
  obtain ⟨e', he', rfl⟩ := List.mem_map.1 he
  by_cases h : e'.1 = k
  · simpa [h] using hms
  · simpa [h] using hwf.ne_nil e' he'

omit [DecidableEq K] in
theorem WellFormed.of_cons {k : K} {ms : List T} {rest : List (K × List T)} (hwf : WellFormed ((k, ms) :: rest)) :
    k ∉ rest.map Prod.fst ∧ ms ≠ [] ∧ WellFormed rest := by
  have hnd := hwf.nodup
  rw [List.map_cons, List.nodup_cons] at hnd
  exact ⟨hnd.1, hwf.ne_nil _ List.mem_cons_self, ⟨hnd.2, fun e he => hwf.ne_nil e (List.mem_cons_of_mem _ he)⟩⟩

omit [DecidableEq K] in
/-- `pop` on the first key, with the message taken as the queue takes it. -/
theorem pop_cons (style : QueueStyle) (k : K) (ms : List T) (rest : List (K × List T)) :
    pop style ((k, ms) :: rest) = ((PerKeyQueue.popMessage style ms).1,
      if (PerKeyQueue.popMessage style ms).2 = [] then rest else rest ++ [(k, (PerKeyQueue.popMessage style ms).2)]) := by
  cases style <;> rfl

theorem mem_setPending {s : List (K × List T)} {k : K} {ms : List T} {e : K × List T}
    (he : e ∈ setPending s k ms) : e ∈ s ∨ e = (k, ms) := by
  obtain ⟨e', he', rfl⟩ := List.mem_map.1 he
  by_cases h : e'.1 = k
  · right
    simp [h]
  · left
    simpa [h] using he'

theorem setPending_of_notMem {s : List (K × List T)} {k : K} (h : k ∉ s.map Prod.fst) (ms : List T) :
    setPending s k ms = s := by
  refine (List.map_congr_left fun e he => ?_).trans (List.map_id s)
  have hne : e.1 ≠ k := fun hk => h (hk ▸ List.mem_map_of_mem he)
  simp [hne]

/-! ### Bounds and conservation -/

/-- No key has more than `max` pending messages. -/
def Bounded (max : ℕ) (s : List (K × List T)) : Prop := ∀ e ∈ s, e.2.length ≤ max

theorem Bounded.length_pendingOf {max : ℕ} {s : List (K × List T)} (hb : Bounded max s) (k : K) :
    (pendingOf s k).length ≤ max := by
  unfold pendingOf
  cases hf : s.find? (fun e => e.1 = k) with
  | none => simp
  | some e => simpa using hb e (List.mem_of_find?_eq_some hf)

theorem bounded_step {style : QueueStyle} {max : ℕ+} {s : List (K × List T)} (hb : Bounded max s) :
    ∀ r, Bounded max (step style max s r).2
  | .push k m => by
    have hlen := hb.length_pendingOf k
    simp only [step, push]
    split_ifs with hnil hlt
    · intro e he
      rcases List.mem_append.1 he with he | he
      · exact hb e he
      · rw [List.mem_singleton.1 he]
        exact max.pos
    · intro e he
      rcases mem_setPending he with he | rfl
      · exact hb e he
      · simp only [List.length_append, List.length_singleton]
        exact hlt
    · cases style
      · exact hb
      all_goals
        intro e he
        rcases mem_setPending he with he | rfl
        · exact hb e he
        · simp only [List.length_append, List.length_tail, List.length_singleton]
          have hpos : 0 < (pendingOf s k).length := List.length_pos_of_ne_nil hnil
          omega
  | .pop => by
    cases s with
    | nil => exact hb
    | cons e rest =>
      obtain ⟨k, ms⟩ := e
      have hms : ms.length ≤ max := hb (k, ms) List.mem_cons_self
      have hrest : Bounded max rest := fun e he => hb e (List.mem_cons_of_mem _ he)
      simp only [step, pop_cons]
      split_ifs
      · exact hrest
      · intro e he
        rcases List.mem_append.1 he with he | he
        · exact hrest e he
        · rw [List.mem_singleton.1 he]
          cases style <;> simp [PerKeyQueue.popMessage] <;> omega
  | .clear => fun _ h => absurd h List.not_mem_nil

/-- The pending messages of a reference state. -/
def pendingMs (s : List (K × List T)) : Multiset T := (s.map fun e => (e.2 : Multiset T)).sum

/-- What a request discards: `clear` discards the pending messages. -/
def discarded (s : List (K × List T)) : PerKeyQueue.Request K T → Multiset T
  | .clear => pendingMs s
  | _ => 0

omit [DecidableEq K] in
theorem pendingMs_append_singleton (s : List (K × List T)) (k : K) (ms : List T) :
    pendingMs (s ++ [(k, ms)]) = pendingMs s + ms := by
  simp [pendingMs]

theorem pendingMs_setPending {s : List (K × List T)} (hnd : (s.map Prod.fst).Nodup) {k : K}
    (hk : k ∈ s.map Prod.fst) (ms : List T) :
    pendingMs (setPending s k ms) + pendingOf s k = pendingMs s + ms := by
  induction s with
  | nil => cases hk
  | cons e s ih =>
    obtain ⟨i, l⟩ := e
    rw [List.map_cons, List.nodup_cons] at hnd
    have hcons : setPending ((i, l) :: s) k ms = (if i = k then (i, ms) else (i, l)) :: setPending s k ms := rfl
    rw [hcons, pendingOf_cons]
    by_cases hik : i = k
    · -- the key listed first: the rest does not have it
      subst hik
      rw [setPending_of_notMem hnd.1]
      simp only [if_true, pendingMs, List.map_cons, List.sum_cons]
      abel
    · have hk' : k ∈ s.map Prod.fst := by simpa [Ne.symm hik] using hk
      simp only [hik, if_false, pendingMs, List.map_cons, List.sum_cons] at ih ⊢
      rw [add_assoc, ih hnd.2 hk', add_assoc]

theorem coe_popMessage (style : QueueStyle) (ms : List T) :
    (ms : Multiset T) = ((PerKeyQueue.popMessage style ms).1.toList : Multiset T) + (PerKeyQueue.popMessage style ms).2 := by
  cases style
  · cases ms <;> simp [PerKeyQueue.popMessage]
  · rcases List.eq_nil_or_concat ms with rfl | ⟨L, b, rfl⟩
    · rfl
    · simp only [PerKeyQueue.popMessage, List.concat_eq_append, List.getLast?_concat, Option.toList_some,
        List.dropLast_concat]
      rw [← Multiset.coe_add, Multiset.coe_singleton, add_comm]
  · cases ms <;> simp [PerKeyQueue.popMessage]

/-- **One request keeps the count**: the pending messages and the one pushed
are those answered, those discarded and those left pending. -/
theorem pendingMs_step {style : QueueStyle} {max : ℕ+} {s : List (K × List T)} (hwf : WellFormed s) :
    ∀ r : PerKeyQueue.Request K T, pendingMs s + r.pushed =
      ((step style max s r).1.toList : Multiset T) + discarded s r + pendingMs (step style max s r).2
  | .push k m => by
    simp only [step, push, PerKeyQueue.Request.pushed, discarded]
    split_ifs with hnil hlt
    · simp [pendingMs_append_singleton]
    · have hk : k ∈ s.map Prod.fst := not_not.1 (mt hwf.pendingOf_eq_nil_iff.2 hnil)
      have hset := pendingMs_setPending hwf.nodup hk (pendingOf s k ++ [m])
      simp only [Option.toList_none, Multiset.coe_nil, zero_add]
      refine (add_left_inj (pendingOf s k : Multiset T)).1 ?_
      rw [hset, ← Multiset.coe_add, Multiset.coe_singleton]
      abel
    · have hk : k ∈ s.map Prod.fst := not_not.1 (mt hwf.pendingOf_eq_nil_iff.2 hnil)
      cases style
      · simp [add_comm]
      all_goals
        obtain ⟨a, t, ht⟩ := List.exists_cons_of_ne_nil hnil
        have hset := pendingMs_setPending hwf.nodup hk (t ++ [m])
        rw [ht] at hset ⊢
        simp only [List.head?_cons, List.tail_cons, Option.toList_some, add_zero]
        refine (add_left_inj ((a :: t : List T) : Multiset T)).1 ?_
        rw [add_assoc (([a] : List T) : Multiset T), hset]
        simp only [← Multiset.coe_add, ← Multiset.cons_coe, ← Multiset.singleton_add]
        abel
  | .pop => by
    cases s with
    | nil => rfl
    | cons e rest =>
      obtain ⟨k, ms⟩ := e
      simp only [step, pop_cons, PerKeyQueue.Request.pushed, discarded, add_zero]
      have hms := coe_popMessage style ms
      split_ifs with hemp
      · rw [hemp] at hms
        simp only [pendingMs, List.map_cons, List.sum_cons]
        rw [hms]
        simp
      · rw [pendingMs_append_singleton]
        simp only [pendingMs, List.map_cons, List.sum_cons]
        rw [hms]
        abel
  | .clear => by simp [step, discarded, PerKeyQueue.Request.pushed, pendingMs]

end RoundRobin

namespace PerKeyQueue

variable {K T : Type*} [DecidableEq K]

/-- The queues of a queue whose map is that of `q` with `l` at `key`. -/
theorem keyQueue_of_insert {q q' : PerKeyQueue K T} {key : K} {l : List T}
    (h : q'.perKeyQueue = q.perKeyQueue.insert key l) (k : K) :
    q'.keyQueue k = if k = key then l else q.keyQueue k := by
  by_cases hk : k = key
  · subst hk
    simp [keyQueue, h]
  · simp [keyQueue, h, hk, AList.lookup_insert_ne hk]

@[simp] theorem keyQueue_removeEmptyQueues (q : PerKeyQueue K T) (k : K) :
    q.removeEmptyQueues.keyQueue k = q.keyQueue k := by
  simp only [removeEmptyQueues, keyQueue, AList.lookup_retain]
  cases q.perKeyQueue.lookup k with
  | none => rfl
  | some l => cases l <;> rfl

theorem popMessage_fst_isSome (style : QueueStyle) {dq : List T} (h : dq ≠ []) :
    (popMessage style dq).1.isSome := by
  cases style <;> simp [popMessage, h]

/-- What `pop` does when the first key of the round-robin queue has
messages. -/
theorem pop_of_lookup {q : PerKeyQueue K T} {key : K} {rest : List K} {dq : List T}
    (hrr : q.roundRobinQueue = key :: rest) (hdq : q.perKeyQueue.lookup key = some dq) (hne : dq ≠ []) :
    ∃ q', q.pop = ((popMessage q.queueStyle dq).1, q') ∧ q'.queueStyle = q.queueStyle ∧
      q'.maxQueueSize = q.maxQueueSize ∧
      q'.roundRobinQueue = (if (popMessage q.queueStyle dq).2 = [] then rest else rest ++ [key]) ∧
      ∀ k, q'.keyQueue k = if k = key then (popMessage q.queueStyle dq).2 else q.keyQueue k := by
  have hsome := popMessage_fst_isSome q.queueStyle hne
  unfold pop
  rw [hrr]
  simp only [popFromKeyQueue, hdq, hsome, if_true]
  -- the key goes back when messages remain; a collection every `POPS_PER_GC` pops changes no queue
  by_cases hemp : (popMessage q.queueStyle dq).2 = []
  · simp only [hemp, List.isEmpty_nil, Bool.not_true, Bool.false_eq_true, if_false, if_true]
    split_ifs
    · exact ⟨_, rfl, rfl, rfl, rfl, fun k => by rw [keyQueue_removeEmptyQueues]; exact keyQueue_of_insert rfl k⟩
    · exact ⟨_, rfl, rfl, rfl, rfl, keyQueue_of_insert rfl⟩
  · have hne' : (!(popMessage q.queueStyle dq).2.isEmpty) = true := by simpa using hemp
    simp only [hne', hemp, if_true, if_false]
    split_ifs
    · exact ⟨_, rfl, rfl, rfl, rfl, fun k => by rw [keyQueue_removeEmptyQueues]; exact keyQueue_of_insert rfl k⟩
    · exact ⟨_, rfl, rfl, rfl, rfl, keyQueue_of_insert rfl⟩

/-! ### Refinement of the reference model -/

/-- A queue in lock step with a reference state: the same round-robin order,
the same pending messages per key, and the style and bound of the model. -/
structure Represents (style : QueueStyle) (max : ℕ+) (q : PerKeyQueue K T) (s : List (K × List T)) : Prop where
  /-- The style of the model. -/
  queueStyle : q.queueStyle = style
  /-- The bound of the model. -/
  maxQueueSize : q.maxQueueSize = max
  /-- The keys in round-robin order. -/
  roundRobinQueue : q.roundRobinQueue = s.map Prod.fst
  /-- The messages of each key. -/
  keyQueue : ∀ k, q.keyQueue k = RoundRobin.pendingOf s k
  /-- The reference state lists each key once, with messages. -/
  wellFormed : RoundRobin.WellFormed s

/-- The messages waiting in the queues of the keys of the round-robin queue. -/
def pendingMessages (q : PerKeyQueue K T) : Multiset T := (q.roundRobinQueue.map fun k => (q.keyQueue k : Multiset T)).sum

/-- What a request discards: `clear` discards the pending messages. -/
def discarded (q : PerKeyQueue K T) : Request K T → Multiset T
  | .clear => q.pendingMessages
  | _ => 0

section Represents

variable {style : QueueStyle} {max : ℕ+} {q : PerKeyQueue K T} {s : List (K × List T)}

theorem represents_new (style : QueueStyle) (max : ℕ+) : Represents style max (new style max : PerKeyQueue K T) [] :=
  ⟨rfl, rfl, rfl, fun _ => rfl, ⟨List.nodup_nil, fun _ h => absurd h List.not_mem_nil⟩⟩

/-- An update of one key's queue that the reference state follows. -/
theorem Represents.of_insert {q' : PerKeyQueue K T} {s' : List (K × List T)} (h : Represents style max q s)
    {key : K} {l : List T} (hmap : q'.perKeyQueue = q.perKeyQueue.insert key l)
    (hstyle : q'.queueStyle = q.queueStyle) (hmax : q'.maxQueueSize = q.maxQueueSize)
    (hrr : q'.roundRobinQueue = s'.map Prod.fst) (hkey : RoundRobin.pendingOf s' key = l)
    (hother : ∀ k, k ≠ key → RoundRobin.pendingOf s' k = RoundRobin.pendingOf s k)
    (hwf : RoundRobin.WellFormed s') : Represents style max q' s' := by
  refine ⟨hstyle.trans h.queueStyle, hmax.trans h.maxQueueSize, hrr, fun k => ?_, hwf⟩
  rw [keyQueue_of_insert hmap]
  split_ifs with hk
  · rw [hk, hkey]
  · rw [h.keyQueue, hother k hk]

theorem Represents.push (h : Represents style max q s) (key : K) (m : T) :
    (q.push key m).1 = (RoundRobin.push style max s key m).1 ∧
      Represents style max (q.push key m).2 (RoundRobin.push style max s key m).2 := by
  have hq := h.keyQueue key
  have hpos : 0 < (max : ℕ) := max.pos
  obtain rfl := h.queueStyle
  obtain rfl := h.maxQueueSize
  unfold PerKeyQueue.push RoundRobin.push
  simp only [hq]
  by_cases hnil : RoundRobin.pendingOf s key = []
  · -- a key without messages joins the back
    have hk := h.wellFormed.pendingOf_eq_nil_iff.1 hnil
    have hfull : ¬ (0 : ℕ) ≥ q.maxQueueSize := by omega
    simp only [hnil, List.isEmpty_nil, if_true, List.length_nil, hfull, if_false, List.nil_append]
    refine ⟨trivial, h.of_insert rfl rfl rfl (by simp [h.roundRobinQueue]) ?_ (fun k hk' => ?_)
      (h.wellFormed.append_singleton hk (List.cons_ne_nil _ _))⟩
    · simp [RoundRobin.pendingOf_append_singleton, hk]
    · rw [RoundRobin.pendingOf_append_singleton, if_neg (Ne.symm hk')]
      split_ifs with hmem
      · rfl
      · exact (RoundRobin.pendingOf_of_notMem hmem).symm
  · have hmem : key ∈ s.map Prod.fst := not_not.1 (mt h.wellFormed.pendingOf_eq_nil_iff.2 hnil)
    have hempty : (RoundRobin.pendingOf s key).isEmpty = false := by simpa using hnil
    simp only [hempty, hnil, if_false, Bool.false_eq_true]
    have hset : ∀ ms', RoundRobin.pendingOf (RoundRobin.setPending s key ms') key = ms' := fun ms' => by
      simp [RoundRobin.pendingOf_setPending, hmem]
    have hsetOther : ∀ ms' k, k ≠ key →
        RoundRobin.pendingOf (RoundRobin.setPending s key ms') k = RoundRobin.pendingOf s k := fun ms' k hk => by
      simp [RoundRobin.pendingOf_setPending, hk]
    have hrr : ∀ ms', q.roundRobinQueue = (RoundRobin.setPending s key ms').map Prod.fst := fun ms' => by
      rw [RoundRobin.keys_setPending, h.roundRobinQueue]
    by_cases hlt : (RoundRobin.pendingOf s key).length < q.maxQueueSize
    · have hfull : ¬ (RoundRobin.pendingOf s key).length ≥ q.maxQueueSize := by omega
      simp only [hfull, hlt, if_true, if_false]
      exact ⟨trivial, h.of_insert rfl rfl rfl (hrr _) (hset _) (hsetOther _) (h.wellFormed.setPending key (by simp))⟩
    · have hfull : (RoundRobin.pendingOf s key).length ≥ q.maxQueueSize := by omega
      simp only [hfull, hlt, if_true, if_false]
      split
      · exact ⟨rfl, h.of_insert rfl rfl rfl h.roundRobinQueue rfl (fun _ _ => rfl) h.wellFormed⟩
      · exact ⟨rfl, h.of_insert rfl rfl rfl (hrr _) (hset _) (hsetOther _) (h.wellFormed.setPending key (by simp))⟩
      · exact ⟨rfl, h.of_insert rfl rfl rfl (hrr _) (hset _) (hsetOther _) (h.wellFormed.setPending key (by simp))⟩

theorem Represents.pop (h : Represents style max q s) :
    q.pop.1 = (RoundRobin.pop style s).1 ∧ Represents style max q.pop.2 (RoundRobin.pop style s).2 := by
  obtain rfl := h.queueStyle
  cases s with
  | nil =>
    have hrr : q.roundRobinQueue = [] := h.roundRobinQueue
    simp only [PerKeyQueue.pop, hrr, RoundRobin.pop]
    exact ⟨trivial, h⟩
  | cons e rest =>
    obtain ⟨k, ms⟩ := e
    obtain ⟨hk, hms, hrest⟩ := h.wellFormed.of_cons
    have hrr : q.roundRobinQueue = k :: rest.map Prod.fst := h.roundRobinQueue
    have hdq : q.perKeyQueue.lookup k = some ms := by
      have hkq : (q.perKeyQueue.lookup k).getD [] = ms := by
        have := h.keyQueue k
        rwa [RoundRobin.pendingOf_cons, if_pos rfl] at this
      cases hl : q.perKeyQueue.lookup k with
      | none => rw [hl] at hkq; exact absurd hkq.symm hms
      | some l => rw [hl, Option.getD_some] at hkq; rw [hkq]
    obtain ⟨q', hpop, hstyle, hmax, hrr', hkq'⟩ := pop_of_lookup hrr hdq hms
    rw [hpop, RoundRobin.pop_cons]
    refine ⟨rfl, hstyle, hmax.trans h.maxQueueSize, ?_, fun j => ?_, ?_⟩
    · rw [hrr']
      split_ifs <;> simp
    · rw [hkq']
      split_ifs with hj hemp hemp
      · rw [hj, hemp, RoundRobin.pendingOf_of_notMem hk]
      · rw [hj, RoundRobin.pendingOf_append_singleton, if_neg hk, if_pos rfl]
      · rw [h.keyQueue, RoundRobin.pendingOf_cons, if_neg (Ne.symm hj)]
      · rw [h.keyQueue, RoundRobin.pendingOf_cons, if_neg (Ne.symm hj), RoundRobin.pendingOf_append_singleton,
          if_neg (Ne.symm hj)]
        split_ifs with hmem
        · rfl
        · exact RoundRobin.pendingOf_of_notMem hmem
    · split_ifs with hemp
      · exact hrest
      · exact hrest.append_singleton hk hemp

theorem Represents.clear (h : Represents style max q s) : Represents style max q.clear [] :=
  ⟨h.queueStyle, h.maxQueueSize, rfl, fun _ => rfl, ⟨List.nodup_nil, fun _ h => absurd h List.not_mem_nil⟩⟩

/-- **One request**: the queue and the reference model answer alike and stay
in lock step. -/
theorem Represents.step (h : Represents style max q s) (r : Request K T) :
    (q.step r).1 = (RoundRobin.step style max s r).1 ∧ Represents style max (q.step r).2 (RoundRobin.step style max s r).2 := by
  cases r with
  | push key m => exact h.push key m
  | pop => exact h.pop
  | clear => exact ⟨rfl, h.clear⟩

theorem Represents.pendingMessages_eq (h : Represents style max q s) : q.pendingMessages = RoundRobin.pendingMs s := by
  unfold pendingMessages RoundRobin.pendingMs
  rw [h.roundRobinQueue, List.map_map]
  congr 1
  refine List.map_congr_left fun e he => ?_
  simp only [Function.comp_apply, h.keyQueue, RoundRobin.pendingOf_of_mem h.wellFormed.nodup he]

theorem Represents.discarded_eq (h : Represents style max q s) (r : Request K T) :
    q.discarded r = RoundRobin.discarded s r := by
  cases r with
  | clear => exact h.pendingMessages_eq
  | push _ _ => rfl
  | pop => rfl

/-- **One request keeps the count**, as in the reference model. -/
theorem Represents.pendingMessages_step (h : Represents style max q s) (r : Request K T) :
    q.pendingMessages + r.pushed = ((q.step r).1.toList : Multiset T) + q.discarded r + (q.step r).2.pendingMessages := by
  obtain ⟨hout, h'⟩ := h.step r
  rw [h.pendingMessages_eq, hout, h.discarded_eq, h'.pendingMessages_eq]
  exact RoundRobin.pendingMs_step h.wellFormed r

/-- **Every run keeps the count**: the messages pending at the start and those
pushed are those answered (dropped by `push` or taken by `pop`), those
discarded by `clear`, and those pending at the end. -/
theorem Represents.conservation (h : Represents style max q s) (is : List (Request K T)) :
    q.pendingMessages + (is.map Request.pushed).sum =
      ((Mealy.trace PerKeyQueue.step q is).map fun t =>
          (t.output.toList : Multiset T) + t.pre.discarded t.input).sum +
        (Mealy.final PerKeyQueue.step q is).pendingMessages := by
  -- the count of one request, carried along the run by the invariant `∃ s, Represents style max q s`
  have hrun := @Mealy.sum_trace_conservation _ _ _ PerKeyQueue.step _ _ (fun q => ∃ s, Represents style max q s)
    pendingMessages (fun t => t.input.pushed) (fun t => (t.output.toList : Multiset T) + t.pre.discarded t.input)
    (fun _ r ⟨_, h⟩ => ⟨_, (h.step r).2⟩) (fun _ r ⟨_, h⟩ => h.pendingMessages_step r) q is ⟨s, h⟩
  rwa [Mealy.map_input_trace] at hrun

end Represents

/-! ### Runs from `new` -/

section Runs

variable (style : QueueStyle) (max : ℕ+) (is : List (Request K T))

/-- **The queue refines the reference model**: on every run from `new`, the
answers are those of the reference model from the empty state. -/
theorem outputs_eq_roundRobin :
    (Mealy.trace step (new style max : PerKeyQueue K T) is).map Mealy.Transition.output =
      (Mealy.trace (RoundRobin.step style max) [] is).map Mealy.Transition.output :=
  Mealy.map_output_trace_eq step (RoundRobin.step style max) (fun _ _ r h => (h.step r).1)
    (fun _ _ r h => (h.step r).2) is (represents_new style max)

/-- At the end of every run from `new`, the queue is in lock step with the
reference model, whose keys have at most `max` messages each. -/
theorem represents_final :
    Represents style max (Mealy.final step (new style max : PerKeyQueue K T) is)
        (Mealy.final (RoundRobin.step style max) [] is) ∧
      RoundRobin.Bounded max (Mealy.final (RoundRobin.step style max) [] is) :=
  @Mealy.rel_final (PerKeyQueue K T) (Request K T) (Option T) step (List (K × List T)) (RoundRobin.step style max)
    (fun q s => Represents style max q s ∧ RoundRobin.Bounded max s)
    (fun _ _ r h => ⟨(h.1.step r).2, RoundRobin.bounded_step h.2 r⟩) _ _ is
    ⟨represents_new style max, fun _ h => absurd h List.not_mem_nil⟩

/-- **No key ever holds more than `max_queue_size` messages.** -/
theorem length_keyQueue_le (k : K) :
    ((Mealy.final step (new style max : PerKeyQueue K T) is).keyQueue k).length ≤ max := by
  obtain ⟨h, hb⟩ := represents_final style max is
  rw [h.keyQueue]
  exact hb.length_pendingOf k

/-- **Every message pushed is accounted for once**: answered (dropped by
`push` or taken by `pop`), discarded by `clear`, or still pending. -/
theorem conservation :
    (is.map Request.pushed).sum =
      ((Mealy.trace step (new style max : PerKeyQueue K T) is).map fun t =>
          (t.output.toList : Multiset T) + t.pre.discarded t.input).sum +
        (Mealy.final step (new style max : PerKeyQueue K T) is).pendingMessages := by
  have h := (represents_new (K := K) (T := T) style max).conservation is
  rwa [show (new style max : PerKeyQueue K T).pendingMessages = 0 from rfl, zero_add] at h

end Runs

end PerKeyQueue

end Diem.Channel
