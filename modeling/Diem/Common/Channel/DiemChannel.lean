import Diem.Common.Channel.MessageQueues
import Mathlib.Algebra.Order.BigOperators.Group.List

/-!
# `diem_channel`

`common/channel/src/diem_channel.rs`: a channel whose senders push keyed
messages into a `PerKeyQueue` shared with the receiver. A push may carry a
feedback channel, on which the sender learns that its message was dequeued or
dropped.

`SharedState` sits behind its mutex, so each call of a `Sender` or of the
`Receiver` is one step of a machine (`step`). A feedback channel is a number,
and a step answers with the statuses it sends, in order. Waking the `Waker` and
the `debug_assert!`s are left out, as in release builds. A step makes at most
one call on the internal queue (`queueRequest`) and takes at most one element
out of it (`released`).

Over every run from `new`, each element pushed while the receiver is alive is
released, discarded by `clear`, or still pending (**`conservation`**). When
every push names its own feedback channel, each channel receives at most one
status: `Dequeued` exactly when a poll takes its element, and `Dropped(m)`
exactly when a push drops it (**`feedback_statuses`**).
-/

namespace Diem.Channel

/-- `ElementStatus`. -/
inductive ElementStatus (M : Type*) where
  | Dequeued
  | Dropped (m : M)

/-- `Poll`, for `poll_next`. -/
inductive Poll (α : Type*) where
  | ready (a : α)
  | pending

/-- `SharedState`. -/
structure SharedState (K : Type*) [DecidableEq K] (M : Type*) where
  /-- `internal_queue`: the messages with their feedback channels. -/
  internalQueue : PerKeyQueue K (M × Option ℕ)
  /-- `waker`: whether the receiver registered one. -/
  waker : Bool
  /-- `num_senders`. -/
  numSenders : ℕ
  /-- `receiver_dropped`. -/
  receiverDropped : Bool
  /-- `stream_terminated`. -/
  streamTerminated : Bool

/-- A call on the channel. -/
inductive Request (K M : Type*) where
  | pushWithFeedback (key : K) (message : M) (statusCh : Option ℕ)
  | pollNext
  | clear
  | cloneSender
  | dropSender
  | dropReceiver

/-- What a call returns. -/
inductive Answer (M : Type*) where
  | pushed (result : Except String Unit)
  | polled (poll : Poll (Option M))
  | done

/-! ### Multisets moved over a run -/

section Multisets

variable {ι α β : Type*}

theorem mem_sum_map {l : List ι} {f : ι → Multiset α} {a : α} : a ∈ (l.map f).sum ↔ ∃ i ∈ l, a ∈ f i := by
  induction l with
  | nil => simp
  | cons i l ih => simp [Multiset.mem_add, ih]

theorem filterMap_sum_map (g : α → Option β) (l : List ι) (f : ι → Multiset α) :
    ((l.map f).sum).filterMap g = (l.map fun i => (f i).filterMap g).sum := by
  induction l with
  | nil => rfl
  | cons i l ih => rw [List.map_cons, List.sum_cons, Multiset.filterMap_add, ih, List.map_cons, List.sum_cons]

theorem coe_flatMap (l : List ι) (f : ι → List α) : ((l.flatMap f : List α) : Multiset α) = (l.map fun i => (f i : Multiset α)).sum := by
  induction l with
  | nil => rfl
  | cons i l ih => rw [List.flatMap_cons, ← Multiset.coe_add, ih, List.map_cons, List.sum_cons]

end Multisets

namespace SharedState

variable {K M : Type*} [DecidableEq K]

/-- `new`: one sender, the receiver and an empty queue; a zero size panics
in `NonZeroUsize!`. -/
def new (queueStyle : QueueStyle) (maxQueueSizePerKey : ℕ) : Option (SharedState K M) :=
  if h : 0 < maxQueueSizePerKey then
    some ⟨PerKeyQueue.new queueStyle ⟨maxQueueSizePerKey, h⟩, false, 1, false, false⟩
  else none

/-- `Sender::push_with_feedback`, with the statuses it sends. -/
def pushWithFeedback (st : SharedState K M) (key : K) (message : M) (statusCh : Option ℕ) :
    (Except String Unit × List (ℕ × ElementStatus M)) × SharedState K M :=
  if st.receiverDropped then ((.error "Channel is closed", []), st)
  else
    let (dropped, internalQueue) := st.internalQueue.push key (message, statusCh)
    let sent := match dropped with
      | some (droppedVal, some droppedStatusCh) => [(droppedStatusCh, ElementStatus.Dropped droppedVal)]
      | _ => []
    ((.ok (), sent), { st with internalQueue, waker := false })

/-- `Receiver::poll_next`, with the statuses it sends. -/
def pollNext (st : SharedState K M) : (Poll (Option M) × List (ℕ × ElementStatus M)) × SharedState K M :=
  let (popped, internalQueue) := st.internalQueue.pop
  let st := { st with internalQueue }
  match popped with
  | some (val, statusCh) =>
    ((.ready (some val), match statusCh with
      | some statusCh => [(statusCh, ElementStatus.Dequeued)]
      | none => []), st)
  | none =>
    if st.numSenders = 0 then ((.ready none, []), { st with streamTerminated := true })
    else ((.pending, []), { st with waker := true })

/-- `Receiver::clear`. -/
def clear (st : SharedState K M) : SharedState K M := { st with internalQueue := st.internalQueue.clear }

/-- `Sender::clone`. -/
def cloneSender (st : SharedState K M) : SharedState K M := { st with numSenders := st.numSenders + 1 }

/-- `Sender::drop`: the last sender wakes the receiver. -/
def dropSender (st : SharedState K M) : SharedState K M :=
  let st := { st with numSenders := st.numSenders - 1 }
  if st.numSenders = 0 then { st with waker := false } else st

/-- `Receiver::drop`. -/
def dropReceiver (st : SharedState K M) : SharedState K M := { st with receiverDropped := true }

/-- Make a call: the answer, and the statuses sent on feedback channels. -/
def step (st : SharedState K M) : Request K M → (Answer M × List (ℕ × ElementStatus M)) × SharedState K M
  | .pushWithFeedback key message statusCh =>
    let ((result, sent), st) := st.pushWithFeedback key message statusCh
    ((.pushed result, sent), st)
  | .pollNext =>
    let ((poll, sent), st) := st.pollNext
    ((.polled poll, sent), st)
  | .clear => ((.done, []), st.clear)
  | .cloneSender => ((.done, []), st.cloneSender)
  | .dropSender => ((.done, []), st.dropSender)
  | .dropReceiver => ((.done, []), st.dropReceiver)

/-! ### What a call does to the internal queue -/

/-- The call a request makes on the internal queue: a push while the receiver
is alive, a pop for a poll, a clear for a clear. -/
def queueRequest (st : SharedState K M) : Request K M → Option (PerKeyQueue.Request K (M × Option ℕ))
  | .pushWithFeedback key message statusCh =>
    if st.receiverDropped then none else some (.push key (message, statusCh))
  | .pollNext => some .pop
  | .clear => some .clear
  | _ => none

/-- The element a request takes out of the internal queue: the one a push
drops, or the one a poll takes. -/
def released (st : SharedState K M) (r : Request K M) : Option (M × Option ℕ) :=
  (st.queueRequest r).bind fun qr => (st.internalQueue.step qr).1

/-- The elements a request puts into the internal queue. -/
def accepted (st : SharedState K M) (r : Request K M) : Multiset (M × Option ℕ) :=
  ((st.queueRequest r).map PerKeyQueue.Request.pushed).getD 0

/-- The elements a request discards: those pending at a `clear`. -/
def discardedBy (st : SharedState K M) (r : Request K M) : Multiset (M × Option ℕ) :=
  ((st.queueRequest r).map st.internalQueue.discarded).getD 0

end SharedState

namespace Request

variable {K M : Type*}

/-- The feedback channel a request hands over. -/
def statusCh : Request K M → Option ℕ
  | .pushWithFeedback _ _ statusCh => statusCh
  | _ => none

/-- Whether a request is a poll. -/
def isPoll : Request K M → Bool
  | .pollNext => true
  | _ => false

/-- The element a request offers the queue. -/
def element : Request K M → Multiset (M × Option ℕ)
  | .pushWithFeedback _ message statusCh => {(message, statusCh)}
  | _ => 0

/-- The status sent for an element `(v, _)` a request takes out of the queue:
a poll dequeues it, a push drops it. -/
def status (r : Request K M) (v : M) : ElementStatus M := if r.isPoll then .Dequeued else .Dropped v

theorem status_eq_dequeued_iff {r : Request K M} {v : M} : r.status v = .Dequeued ↔ r.isPoll = true := by
  unfold status
  cases r.isPoll <;> simp

theorem status_eq_dropped_iff {r : Request K M} {v m : M} : r.status v = .Dropped m ↔ r.isPoll = false ∧ v = m := by
  unfold status
  cases r.isPoll <;> simp [eq_comm]

/-- The channels of the elements the requests offer are the channels they
hand over. -/
theorem filterMap_snd_sum_element (is : List (Request K M)) :
    ((is.map element).sum).filterMap Prod.snd = (is.filterMap statusCh : Multiset ℕ) := by
  induction is with
  | nil => rfl
  | cons r is ih =>
    rw [List.map_cons, List.sum_cons, Multiset.filterMap_add, ih]
    cases r with
    | pushWithFeedback key message statusCh => cases statusCh <;> rfl
    | pollNext | clear | cloneSender | dropSender | dropReceiver => simp [element, statusCh, List.filterMap_cons]

end Request

namespace SharedState

variable {K M : Type*} [DecidableEq K]

theorem internalQueue_step (st : SharedState K M) (r : Request K M) :
    (st.step r).2.internalQueue =
      ((st.queueRequest r).map fun qr => (st.internalQueue.step qr).2).getD st.internalQueue := by
  cases r with
  | pushWithFeedback key message statusCh =>
    by_cases hd : st.receiverDropped
    · simp [step, pushWithFeedback, queueRequest, hd]
    · simp [step, pushWithFeedback, queueRequest, hd, PerKeyQueue.step]
  | pollNext =>
    rcases hp : st.internalQueue.pop with ⟨popped, q⟩
    simp only [step, pollNext, hp, queueRequest, PerKeyQueue.step]
    rcases popped with _ | ⟨v, ch⟩
    · split_ifs <;> rfl
    · rfl
  | clear => rfl
  | cloneSender => rfl
  | dropSender => simp only [step, dropSender]; split_ifs <;> rfl
  | dropReceiver => rfl

/-- **The statuses a call sends**: one, on the feedback channel of the
element it takes out of the queue, if that element has one. -/
theorem sent_step (st : SharedState K M) (r : Request K M) :
    (st.step r).1.2 = ((st.released r).bind fun e => e.2.map fun c => (c, r.status e.1)).toList := by
  cases r with
  | pushWithFeedback key message statusCh =>
    by_cases hd : st.receiverDropped
    · simp [step, pushWithFeedback, released, queueRequest, hd]
    · rcases hp : st.internalQueue.push key (message, statusCh) with ⟨dropped, q⟩
      simp only [step, pushWithFeedback, released, queueRequest, hd, hp, PerKeyQueue.step, Bool.false_eq_true,
        if_false, Option.bind_some]
      -- the message dropped to make room, with or without a channel
      rcases dropped with _ | ⟨v, _ | c⟩ <;> rfl
  | pollNext =>
    rcases hp : st.internalQueue.pop with ⟨popped, q⟩
    simp only [step, pollNext, released, queueRequest, hp, PerKeyQueue.step, Option.bind_some]
    rcases popped with _ | ⟨v, _ | c⟩
    · split_ifs <;> rfl
    · rfl
    · rfl
  | clear | cloneSender | dropSender | dropReceiver => rfl

/-- A poll that takes an element returns its message. -/
theorem pollNext_of_released {st : SharedState K M} {v : M} {ch : Option ℕ}
    (h : st.released .pollNext = some (v, ch)) : (st.step .pollNext).1.1 = .polled (.ready (some v)) := by
  simp only [released, queueRequest, PerKeyQueue.step, Option.bind_some] at h
  simp only [step, pollNext, h]

/-- Only a poll is answered by `polled`. -/
theorem isPoll_of_polled {st : SharedState K M} {r : Request K M} {p : Poll (Option M)}
    (h : (st.step r).1.1 = .polled p) : r.isPoll = true := by
  cases r with
  | pollNext => rfl
  | pushWithFeedback key message statusCh =>
    rcases hp : st.pushWithFeedback key message statusCh with ⟨⟨result, sent⟩, st'⟩
    simp [step, hp] at h
  | clear | cloneSender | dropSender | dropReceiver => simp [step] at h

/-- What a request other than a poll takes out of the queue, a push dropped. -/
theorem exists_push_of_released {st : SharedState K M} {r : Request K M} {e : M × Option ℕ}
    (h : st.released r = some e) (hr : r.isPoll = false) :
    ∃ key message statusCh, r = .pushWithFeedback key message statusCh := by
  cases r with
  | pushWithFeedback key message statusCh => exact ⟨key, message, statusCh, rfl⟩
  | pollNext => cases hr
  | clear | cloneSender | dropSender | dropReceiver => cases h

theorem accepted_le_element (st : SharedState K M) (r : Request K M) : st.accepted r ≤ r.element := by
  cases r with
  | pushWithFeedback key message statusCh =>
    by_cases hd : st.receiverDropped
    · simp only [accepted, queueRequest, hd, if_true, Option.map_none, Option.getD_none]
      exact Multiset.zero_le _
    · simp [accepted, queueRequest, hd, PerKeyQueue.Request.pushed, Request.element]
  | pollNext | clear | cloneSender | dropSender | dropReceiver => exact Multiset.zero_le _

/-! ### The internal queue over runs -/

/-- The internal queue is in lock step with a reference state of the model
of `style` and `max`. -/
def Consistent (style : QueueStyle) (max : ℕ+) (st : SharedState K M) : Prop :=
  ∃ s, PerKeyQueue.Represents style max st.internalQueue s

section Consistent

variable {style : QueueStyle} {max : ℕ+}

theorem consistent_of_new {n : ℕ} {st : SharedState K M} (h : new style n = some st) :
    ∃ max : ℕ+, Consistent style max st ∧ st.internalQueue.pendingMessages = 0 := by
  unfold new at h
  split_ifs at h with hn
  cases h
  exact ⟨⟨n, hn⟩, ⟨[], PerKeyQueue.represents_new style _⟩, rfl⟩

theorem Consistent.step {st : SharedState K M} (h : Consistent style max st) (r : Request K M) :
    Consistent style max (st.step r).2 := by
  obtain ⟨s, hs⟩ := h
  unfold Consistent
  rw [internalQueue_step]
  cases st.queueRequest r with
  | none => exact ⟨s, hs⟩
  | some qr => exact ⟨_, (hs.step qr).2⟩

/-- **One call keeps the count** of the internal queue's elements. -/
theorem Consistent.pendingMessages_step {st : SharedState K M} (h : Consistent style max st) (r : Request K M) :
    st.internalQueue.pendingMessages + st.accepted r =
      ((st.released r).toList : Multiset (M × Option ℕ)) + st.discardedBy r +
        (st.step r).2.internalQueue.pendingMessages := by
  obtain ⟨s, hs⟩ := h
  rw [internalQueue_step]
  unfold accepted released discardedBy
  cases st.queueRequest r with
  | none => simp
  | some qr => exact hs.pendingMessages_step qr

/-- **Every run keeps the count**: the elements pending at the start and those
accepted are those released (dropped or taken), those discarded, and those
pending at the end. -/
theorem Consistent.conservation {st : SharedState K M} (h : Consistent style max st) (is : List (Request K M)) :
    st.internalQueue.pendingMessages + ((Mealy.trace SharedState.step st is).map fun t => t.pre.accepted t.input).sum =
      ((Mealy.trace SharedState.step st is).map fun t =>
          ((t.pre.released t.input).toList : Multiset (M × Option ℕ)) + t.pre.discardedBy t.input).sum +
        (Mealy.final SharedState.step st is).internalQueue.pendingMessages :=
  Mealy.sum_trace_conservation SharedState.step (fun st => st.internalQueue.pendingMessages) _ _
    (fun _ r h => h.step r) (fun _ r h => h.pendingMessages_step r) is h

/-- Over a run from a consistent state with nothing pending, the elements
taken out of the queue are among those the requests offered. -/
theorem Consistent.released_le {st : SharedState K M} (h : Consistent style max st)
    (h0 : st.internalQueue.pendingMessages = 0) (is : List (Request K M)) :
    ((Mealy.trace SharedState.step st is).map fun t => ((t.pre.released t.input).toList : Multiset (M × Option ℕ))).sum ≤
      (is.map Request.element).sum := by
  have hcons := h.conservation is
  rw [h0, zero_add, List.sum_map_add] at hcons
  calc ((Mealy.trace SharedState.step st is).map fun t => ((t.pre.released t.input).toList : Multiset _)).sum
      ≤ ((Mealy.trace SharedState.step st is).map fun t => ((t.pre.released t.input).toList : Multiset _)).sum +
          ((Mealy.trace SharedState.step st is).map fun t => t.pre.discardedBy t.input).sum +
          (Mealy.final SharedState.step st is).internalQueue.pendingMessages := by
        rw [add_assoc]
        exact Multiset.le_add_right _ _
    _ = ((Mealy.trace SharedState.step st is).map fun t => t.pre.accepted t.input).sum := hcons.symm
    _ ≤ ((Mealy.trace SharedState.step st is).map fun t => t.input.element).sum :=
        List.sum_le_sum fun t _ => accepted_le_element t.pre t.input
    _ = (is.map Request.element).sum := by rw [Mealy.map_input_trace]

end Consistent

/-! ### Feedback over runs -/

/-- The statuses a run sends, in order. -/
def statusesSent (st : SharedState K M) (is : List (Request K M)) : List (ℕ × ElementStatus M) :=
  (Mealy.trace step st is).flatMap fun t => t.output.2

theorem mem_statusesSent {st : SharedState K M} {is : List (Request K M)} {c : ℕ} {e : ElementStatus M} :
    (c, e) ∈ statusesSent st is ↔
      ∃ t ∈ Mealy.trace step st is, ∃ v, t.pre.released t.input = some (v, some c) ∧ e = t.input.status v := by
  simp only [statusesSent, List.mem_flatMap]
  refine exists_congr fun t => and_congr_right fun ht => ?_
  rw [(Mealy.reachable_of_mem_trace step ht).2.2, sent_step]
  simp only [Option.mem_toList, Option.bind_eq_some_iff, Option.map_eq_some_iff, Prod.mk.injEq, Prod.exists]
  constructor
  · rintro ⟨v, ch, hrel, c', rfl, rfl, rfl⟩
    exact ⟨v, hrel, rfl⟩
  · rintro ⟨v, hrel, rfl⟩
    exact ⟨v, some c, hrel, c, rfl, rfl, rfl⟩

/-- A channel is sent `Dequeued` exactly when a poll returns the message of
its element. -/
theorem dequeued_mem_statusesSent_iff {st : SharedState K M} {is : List (Request K M)} {c : ℕ} :
    (c, .Dequeued) ∈ statusesSent st is ↔
      ∃ t ∈ Mealy.trace step st is, ∃ v, t.pre.released t.input = some (v, some c) ∧
        t.output.1 = .polled (.ready (some v)) := by
  rw [mem_statusesSent]
  refine exists_congr fun t => and_congr_right fun ht => exists_congr fun v => and_congr_right fun hrel => ?_
  rw [(Mealy.reachable_of_mem_trace step ht).2.2, eq_comm, Request.status_eq_dequeued_iff]
  constructor
  · intro hpoll
    cases hr : t.input with
    | pollNext => rw [hr] at hrel; exact pollNext_of_released hrel
    | _ => rw [hr] at hpoll; cases hpoll
  · exact isPoll_of_polled

/-- A channel is sent `Dropped(m)` exactly when a push drops its element,
whose message is `m`. -/
theorem dropped_mem_statusesSent_iff {st : SharedState K M} {is : List (Request K M)} {c : ℕ} {m : M} :
    (c, .Dropped m) ∈ statusesSent st is ↔
      ∃ t ∈ Mealy.trace step st is, t.pre.released t.input = some (m, some c) ∧
        ∃ key message statusCh, t.input = .pushWithFeedback key message statusCh := by
  rw [mem_statusesSent]
  refine exists_congr fun t => and_congr_right fun _ => ?_
  constructor
  · rintro ⟨v, hrel, hst⟩
    obtain ⟨hpoll, rfl⟩ := Request.status_eq_dropped_iff.1 hst.symm
    exact ⟨hrel, exists_push_of_released hrel hpoll⟩
  · rintro ⟨hrel, key, message, statusCh, hr⟩
    exact ⟨m, hrel, (Request.status_eq_dropped_iff.2 ⟨by rw [hr]; rfl, rfl⟩).symm⟩

section Consistent

variable {style : QueueStyle} {max : ℕ+} {st : SharedState K M}

/-- The channels a run sends to are those of the elements taken out of the
queue. -/
theorem coe_map_fst_statusesSent (is : List (Request K M)) :
    (((statusesSent st is).map Prod.fst : List ℕ) : Multiset ℕ) =
      (((Mealy.trace step st is).map fun t => ((t.pre.released t.input).toList : Multiset (M × Option ℕ))).sum).filterMap
        Prod.snd := by
  rw [filterMap_sum_map, statusesSent, List.map_flatMap, coe_flatMap]
  congr 1
  refine List.map_congr_left fun t ht => ?_
  rw [(Mealy.reachable_of_mem_trace step ht).2.2, sent_step]
  cases t.pre.released t.input with
  | none => rfl
  | some e => obtain ⟨v, _ | c⟩ := e <;> rfl

/-- **Each element on a channel is its own**: over a run from a consistent
state with nothing pending, an element taken out of the queue with channel
`c` was pushed with `c`, and its message is the one pushed. -/
theorem Consistent.pushed_of_released (h : Consistent style max st) (h0 : st.internalQueue.pendingMessages = 0)
    {is : List (Request K M)} {t : Mealy.Transition (SharedState K M) (Request K M) (Answer M × List (ℕ × ElementStatus M))}
    (ht : t ∈ Mealy.trace SharedState.step st is) {v : M} {c : ℕ} (hrel : t.pre.released t.input = some (v, some c)) :
    ∃ key, .pushWithFeedback key v (some c) ∈ is := by
  have hmem : (v, some c) ∈ ((Mealy.trace SharedState.step st is).map fun t =>
      ((t.pre.released t.input).toList : Multiset (M × Option ℕ))).sum :=
    mem_sum_map.2 ⟨t, ht, by simp [hrel]⟩
  obtain ⟨r, hr, hel⟩ := mem_sum_map.1 (Multiset.mem_of_le (h.released_le h0 is) hmem)
  cases r with
  | pushWithFeedback key message statusCh =>
    simp only [Request.element, Multiset.mem_singleton, Prod.mk.injEq] at hel
    obtain ⟨rfl, rfl⟩ := hel
    exact ⟨key, hr⟩
  | pollNext | clear | cloneSender | dropSender | dropReceiver => simp [Request.element] at hel

/-- **At most one status per channel**: when the requests hand over each
channel once, as ownership of a `oneshot::Sender` makes them, a run from a
consistent state with nothing pending sends on each channel at most once. -/
theorem Consistent.nodup_statusesSent (h : Consistent style max st) (h0 : st.internalQueue.pendingMessages = 0)
    {is : List (Request K M)} (hnd : (is.filterMap Request.statusCh).Nodup) :
    ((statusesSent st is).map Prod.fst).Nodup := by
  have hle := Multiset.filterMap_le_filterMap Prod.snd (h.released_le h0 is)
  rw [← coe_map_fst_statusesSent, Request.filterMap_snd_sum_element] at hle
  exact Multiset.coe_nodup.1 (Multiset.nodup_of_le hle (Multiset.coe_nodup.2 hnd))

end Consistent

end SharedState

open SharedState in
/-- **`PerKeyQueue` refines its round-robin model**, and `diem_channel`'s
feedback is honest. For every style and bound, on every run from `new`, the
queue answers as the reference model does, no key holds more than the bound,
and each message pushed is answered (dropped or popped), discarded by
`clear` or still pending, once. On every run of a channel from `new`, each
channel handed over once gets at most one status: `Dequeued` exactly when a
poll returns its element's message, `Dropped(m)` exactly when a push drops
its element, and the message of that element is the one pushed on it. -/
theorem perKeyQueue_refines_roundRobin {K T M : Type*} [DecidableEq K] (style : QueueStyle) :
    (∀ (max : ℕ+) (is : List (PerKeyQueue.Request K T)),
      (Mealy.trace PerKeyQueue.step (PerKeyQueue.new style max) is).map Mealy.Transition.output =
          (Mealy.trace (RoundRobin.step style max) [] is).map Mealy.Transition.output ∧
        (∀ k, ((Mealy.final PerKeyQueue.step (PerKeyQueue.new style max) is).keyQueue k).length ≤ max) ∧
        (is.map PerKeyQueue.Request.pushed).sum =
          ((Mealy.trace PerKeyQueue.step (PerKeyQueue.new style max) is).map fun t =>
              (t.output.toList : Multiset T) + t.pre.discarded t.input).sum +
            (Mealy.final PerKeyQueue.step (PerKeyQueue.new style max) is).pendingMessages) ∧
    ∀ (n : ℕ) (st₀ : SharedState K M), SharedState.new style n = some st₀ → ∀ is : List (Request K M),
      ((is.filterMap Request.statusCh).Nodup → ((statusesSent st₀ is).map Prod.fst).Nodup) ∧
      (∀ c, (c, .Dequeued) ∈ statusesSent st₀ is ↔
        ∃ t ∈ Mealy.trace SharedState.step st₀ is, ∃ v, t.pre.released t.input = some (v, some c) ∧
          t.output.1 = .polled (.ready (some v))) ∧
      (∀ c m, (c, .Dropped m) ∈ statusesSent st₀ is ↔
        ∃ t ∈ Mealy.trace SharedState.step st₀ is, t.pre.released t.input = some (m, some c) ∧
          ∃ key message statusCh, t.input = .pushWithFeedback key message statusCh) ∧
      ∀ t ∈ Mealy.trace SharedState.step st₀ is, ∀ v c, t.pre.released t.input = some (v, some c) →
        ∃ key, .pushWithFeedback key v (some c) ∈ is := by
  refine ⟨fun max is => ⟨PerKeyQueue.outputs_eq_roundRobin style max is,
    PerKeyQueue.length_keyQueue_le style max is, PerKeyQueue.conservation style max is⟩, ?_⟩
  intro n st₀ h₀ is
  obtain ⟨max, hcons, h0⟩ := consistent_of_new h₀
  exact ⟨hcons.nodup_statusesSent h0, fun _ => dequeued_mem_statusesSent_iff, fun _ _ => dropped_mem_statusesSent_iff,
    fun _ ht _ _ hrel => hcons.pushed_of_released h0 ht hrel⟩

/-- Two pushes with feedback on one key of a FIFO channel of size one, then a
poll: the second message is dropped, the first dequeued. -/
def feedbackRun : List (Request ℕ ℕ) := [.pushWithFeedback 0 5 (some 0), .pushWithFeedback 0 6 (some 1), .pollNext]

theorem perKeyQueue_refines_roundRobin_feedbackRun :
    SharedState.new .FIFO 1 = some (⟨PerKeyQueue.new .FIFO 1, false, 1, false, false⟩ : SharedState ℕ ℕ) ∧
      (feedbackRun.filterMap Request.statusCh).Nodup ∧
      ((SharedState.statusesSent ⟨PerKeyQueue.new .FIFO 1, false, 1, false, false⟩ feedbackRun).map Prod.fst).Nodup :=
  ⟨rfl, by decide,
    (((@perKeyQueue_refines_roundRobin ℕ ℕ ℕ _ .FIFO).2 1 _ rfl feedbackRun).1 (by decide))⟩

end Diem.Channel
