import MioBroker.Calls

/-!
# Caps and index hold in every state

No act, whatever its arguments, takes a connection over its caps or lets the index go stale.
-/
namespace MioBroker

open Rust

namespace Client

/-- A record within its caps. -/
structure Capped (c : Client) : Prop where
  queue : c.Bounded
  window : c.inFlight.size ≤ IN_FLIGHT_CAP

theorem capped_accepted (t : Token) (h₁ h₂ : RandomState UInt16) : (accepted t h₁ h₂).Capped :=
  ⟨Nat.zero_le _, Nat.zero_le _⟩

theorem bounded_reply (c : Client) (pkt : Bytes) (bounded : c.Bounded) : (c.reply pkt).Bounded := by
  simp only [reply, queueQos0]
  split
  · exact bounded
  next short =>
    simp only [Bounded, List.length_append, List.length_singleton]
    omega

@[simp] theorem inFlight_reply (c : Client) (pkt : Bytes) : (c.reply pkt).inFlight = c.inFlight := by
  simp only [reply, queueQos0]
  split <;> rfl

theorem bounded_queueQos1 (c : Client) (pkt : Bytes) (bounded : c.Bounded) :
    (c.queueQos1 pkt).1.Bounded := by
  simp only [queueQos1]
  split
  next queue made =>
    have ok : (makeRoom c.writeQueue.length c.writeQueue).2 = true := by rw [made]
    have short := makeRoom_true _ _ ok
    rw [made] at short
    simp only at short
    simp only [Bounded, List.length_append, List.length_singleton]
    omega
  next queue made =>
    have le := (sublist_makeRoom c.writeQueue.length c.writeQueue).length_le
    rw [made] at le
    exact Nat.le_trans le bounded

@[simp] theorem inFlight_queueQos1 (c : Client) (pkt : Bytes) :
    (c.queueQos1 pkt).1.inFlight = c.inFlight := by
  simp only [queueQos1]
  split <;> rfl

theorem suffix_fillBatch (queue : List (Bool × Bytes)) (batch : Bytes) :
    (fillBatch queue batch).1 <:+ queue := by
  induction queue generalizing batch with
  | nil => exact List.suffix_refl _
  | cons entry queue ih =>
    obtain ⟨r, p⟩ := entry
    simp only [fillBatch]
    split
    · exact (ih _).trans (List.suffix_cons _ _)
    · exact List.suffix_refl _

/-- What `refill` leaves alone. -/
theorem refill_frame (c d : Client) (done : c.refill = some d) :
    d = { c with writeQueue := d.writeQueue, writePending := d.writePending, writeOff := d.writeOff } ∧
      d.writeQueue <:+ c.writeQueue := by
  simp only [refill] at done
  split at done
  · split at done
    · cases done
    · cases done
      exact ⟨rfl, suffix_fillBatch _ _⟩
  · cases done
    exact ⟨rfl, List.suffix_refl _⟩

/-- A write loop moves bytes from the queue to the socket, nothing else. -/
theorem writeLoop_frame (ws : List WriteResult) (c : Client) :
    (c.writeLoop ws).1 = { c with
      stream := (c.writeLoop ws).1.stream, writeQueue := (c.writeLoop ws).1.writeQueue
      writePending := (c.writeLoop ws).1.writePending, writeOff := (c.writeLoop ws).1.writeOff } ∧
      (c.writeLoop ws).1.writeQueue <:+ c.writeQueue := by
  induction ws generalizing c with
  | nil =>
    rw [writeLoop]
    split
    · exact ⟨rfl, List.suffix_refl _⟩
    next d done =>
      obtain ⟨frame, rest⟩ := refill_frame c d done
      refine ⟨?_, rest⟩
      rw [frame]
  | cons w ws ih =>
    rw [writeLoop]
    split
    · exact ⟨rfl, List.suffix_refl _⟩
    next d done =>
      obtain ⟨frame, rest⟩ := refill_frame c d done
      cases w with
      | wouldBlock =>
        refine ⟨?_, rest⟩
        rw [frame]
      | err =>
        refine ⟨?_, rest⟩
        rw [frame]
      | ok n =>
        simp only
        split
        · refine ⟨?_, rest⟩
          rw [frame]
        · -- A partial write moves the offset and the loop goes on from there.
          obtain ⟨frame', rest'⟩ := ih { d with
            stream := ⟨d.stream.accepted ++ (d.writePending.drop d.writeOff).take
              (min n (d.writePending.drop d.writeOff).length)⟩
            writeOff := d.writeOff + min n (d.writePending.drop d.writeOff).length }
          refine ⟨?_, rest'.trans rest⟩
          rw [frame', frame]

@[simp] theorem inFlight_writeLoop (ws : List WriteResult) (c : Client) :
    (c.writeLoop ws).1.inFlight = c.inFlight := by
  rw [(writeLoop_frame ws c).1]

theorem size_restartTimer (c : Client) (pid : UInt16) (now : Instant) :
    (c.restartTimer pid now).inFlight.size = c.inFlight.size := by
  simp only [restartTimer]
  split
  next entry found => exact HashMap.size_insert_old _ _ _ _ found
  next => rfl

@[simp] theorem writeQueue_restartTimer (c : Client) (pid : UInt16) (now : Instant) :
    (c.restartTimer pid now).writeQueue = c.writeQueue := by
  simp only [restartTimer]
  split <;> rfl

/-- No change takes a record over its caps. -/
theorem Capped.change {c : Client} (capped : c.Capped) (now : Instant) (ch : Change) :
    (ch.apply now c).Capped := by
  obtain ⟨queue, window⟩ := capped
  cases ch with
  | reply pkt => exact ⟨bounded_reply c pkt queue, by simpa [Change.apply] using window⟩
  | connect p =>
    exact ⟨bounded_reply _ _ queue, by simpa [Change.apply, applyConnect] using window⟩
  | buffer buf => exact ⟨queue, window⟩
  | alive =>
    simp only [Change.apply, refreshKeepalive]
    split <;> exact ⟨queue, window⟩
  | publishQos2 pid =>
    simp only [Change.apply, receiveQos2]
    refine ⟨bounded_reply _ _ ?_, ?_⟩
    · split <;> exact queue
    · rw [inFlight_reply]
      split <;> exact window
  | acked pid => exact ⟨queue, Nat.le_trans (HashMap.size_erase_le _ _) window⟩
  | pubrec pid =>
    simp only [Change.apply, pubrec]
    split
    next entry found =>
      split
      · -- PUBREC overwrites an entry that is there, so the window does not grow.
        refine ⟨bounded_reply _ _ queue, ?_⟩
        rw [inFlight_reply]
        exact Nat.le_trans (Nat.le_of_eq (HashMap.size_insert_old _ _ _ _ found)) window
      · exact ⟨queue, window⟩
    next => exact ⟨queue, window⟩
  | pubrel pid =>
    refine ⟨bounded_reply _ _ queue, ?_⟩
    simpa [Change.apply] using window
  | disconnect => exact ⟨queue, window⟩
  | retry pid pkt scanned =>
    have bounded := bounded_queueQos1 c pkt queue
    have same := inFlight_queueQos1 c pkt
    simp only [Change.apply]
    split
    next d made =>
      rw [made] at bounded same
      refine ⟨?_, ?_⟩
      · rw [Bounded, writeQueue_restartTimer]
        exact bounded
      · rw [size_restartTimer, same]
        exact window
    next d made =>
      rw [made] at bounded same
      exact ⟨bounded, by rw [same]; exact window⟩
  | write ws =>
    refine ⟨Nat.le_trans (writeLoop_frame ws c).2.length_le queue, ?_⟩
    simpa [Change.apply] using window
  | rearm interest => exact ⟨queue, window⟩

theorem capped_of_offer {c d : Client} (capped : c.Capped) (now : Instant) (topic : Str)
    (payload : Bytes) (qos : UInt8) (retain : Bool)
    (done : c.offer now topic payload qos retain = .queued d) : d.Capped := by
  refine ⟨bounded_of_offer c d now topic payload qos retain capped.queue done, ?_⟩
  by_cases unreliable : qos = 0
  · subst unreliable
    rw [(offer_qos0_counts c d now topic payload retain done).2.1]
    exact capped.window
  · have room := (offer_reliable_iff c now topic payload qos retain unreliable capped.queue).mp ⟨d, done⟩
    have counts := offer_reliable_counts c d now topic payload qos retain unreliable capped.queue done
    rw [counts.1]
    exact room.1

end Client

theorem Act.publish_ok {b b' : Broker} (indexed : b.Indexed) {topic : Str} {payload : Bytes}
    {qos : UInt8} {retain : Bool} (done : (Act.publish topic payload qos retain).run b = .ok b') :
    b.Published b' topic payload qos retain := by
  obtain ⟨⟨d, counts⟩, published, same⟩ := Run.bind_ok.mp done
  cases same
  exact Broker.publish_ok indexed published

namespace Broker

/-- Caps and index are in order. -/
structure Healthy (b : Broker) : Prop where
  indexed : b.Indexed
  capped : ∀ t c, b.clients.get? t = some c → c.Capped

namespace Healthy

variable {b : Broker}

theorem of_clients (healthy : b.Healthy) {b' : Broker} (indexed : b'.Indexed)
    (same : b'.clients = b.clients) : b'.Healthy :=
  ⟨indexed, by rw [same]; exact healthy.capped⟩

theorem modify (healthy : b.Healthy) (t : Token) (c : Client) (capped : c.Capped) :
    ∀ t' c', (b.clients.insert t c).get? t' = some c' → c'.Capped := by
  intro t' c' found
  rw [HashMap.get?_insert] at found
  split at found
  · cases found
    exact capped
  · exact healthy.capped t' c' found

theorem deliver (healthy : b.Healthy) (t : Token) (topic : Str) (payload : Bytes) (qos : UInt8)
    (retain : Bool) : (b.deliverTo t topic payload qos retain).1.Healthy := by
  cases found : b.clients.get? t with
  | none =>
    rw [deliverTo_absent b t topic payload qos retain found]
    exact healthy
  | some c =>
    cases result : c.offer b.now topic payload qos retain with
    | queued d =>
      rw [deliverTo_queued b t topic payload qos retain c d found result]
      exact ⟨healthy.indexed, healthy.modify t d
        (Client.capped_of_offer (healthy.capped t c found) _ _ _ _ _ result)⟩
    | refused =>
      rw [deliverTo_refused b t topic payload qos retain c found result]
      exact healthy
    -- Erasing a client takes none of the others beyond its caps.
    | dropped =>
      rw [deliverTo_dropped b t topic payload qos retain c found result]
      refine ⟨healthy.indexed, fun t' c' there => ?_⟩
      rw [HashMap.get?_erase] at there
      split at there
      · cases there
      · exact healthy.capped t' c' there

theorem publish (healthy : b.Healthy) {b' : Broker} {topic : Str} {payload : Bytes}
    {qos : UInt8} {retain : Bool} (spec : Published b b' topic payload qos retain) :
    b'.Healthy := by
  refine ⟨spec.indexed, fun t d found => ?_⟩
  rw [spec.slots t] at found
  cases before : b.clients.get? t with
  | none => simp [before] at found
  | some c =>
    rw [before] at found
    exact Client.serve_induction Client.Capped b.now topic payload _ c d
      (fun e f q _ capped queued => Client.capped_of_offer capped _ _ _ _ _ queued)
      (healthy.capped t c before) found

end Healthy

theorem persistSession_frame (b b' : Broker) (t : Token) (done : b.persistSession t = .ok b') :
    ∃ sessions dirty, b' = { b with sessions := sessions, dirty := dirty } := by
  simp only [persistSession] at done
  split at done
  · split at done
    · obtain ⟨offline, -, rest⟩ := Run.bind_ok.mp done
      cases rest
      exact ⟨_, _, rfl⟩
    · cases done
      exact ⟨_, _, rfl⟩
  · cases done
    exact ⟨_, _, rfl⟩

/-- Every act keeps caps and index in order. -/
theorem Healthy.act {b b' : Broker} (healthy : b.Healthy) (a : Act) (done : a.run b = .ok b') :
    b'.Healthy := by
  cases a with
  | change t ch =>
    simp only [Act.run, modifyClient] at done
    split at done
    next c found =>
      cases done
      exact ⟨healthy.indexed, healthy.modify t _ ((healthy.capped t c found).change _ ch)⟩
    next => cases done
  | deliver t topic payload qos retain =>
    cases done
    exact healthy.deliver t topic payload qos retain
  | publish topic payload qos retain =>
    have spec := Act.publish_ok healthy.indexed done
    exact healthy.publish spec
  | addSub filter t qos =>
    cases done
    refine healthy.of_clients (b.indexed_addSub filter t qos healthy.indexed) ?_
    rw [addSub, subs_indexSub]
  | unsubscribe t filters =>
    cases done
    refine healthy.of_clients (indexed_rebuildIndex _) ?_
    rw [unsubscribe, rebuildIndex_frame]
  | eraseSession cid =>
    cases done
    refine healthy.of_clients ?_ ?_
    · simp only [eraseSession]
      split <;> exact healthy.indexed
    · simp only [eraseSession]
      split <;> rfl
  | accept h₁ h₂ =>
    cases done
    exact ⟨healthy.indexed, healthy.modify _ _ (Client.capped_accepted _ _ _)⟩
  | logWill t will =>
    cases done
    exact ⟨healthy.indexed, healthy.capped⟩
  | persist t =>
    obtain ⟨sessions, dirty, rfl⟩ := b.persistSession_frame b' t done
    exact ⟨healthy.indexed, healthy.capped⟩
  -- The index is rebuilt over the subscriptions that are left.
  | drop t =>
    cases done
    refine ⟨?_, fun t' c found => ?_⟩
    · exact indexed_rebuildIndex { b with subs := b.subs.filter fun s => s.token != t }
    · rw [dropClient, rebuildIndex_frame] at found
      simp only [HashMap.get?_erase] at found
      split at found
      · cases found
      · exact healthy.capped t' c found
  | account after =>
    cases done
    exact ⟨healthy.indexed, healthy.capped⟩

theorem healthy_new (h : Hashers) (now : Instant) (file : StateFile) : (new h now file).Healthy :=
  ⟨Indexes.empty _, fun t c found => by simp [new] at found⟩

theorem loadState_frame (b : Broker) (h : Hashers) :
    ∃ retained sessions, b.loadState h =
      { b with retained := retained, sessions := sessions, dirty := true } := by
  simp only [loadState]
  split
  · split
    · exact ⟨_, _, rfl⟩
    · exact ⟨_, _, rfl⟩
  · exact ⟨_, _, rfl⟩

theorem healthy_startup (h : Hashers) (now : Instant) (file : StateFile) :
    ((new h now file).loadState h).Healthy := by
  obtain ⟨retained, sessions, loaded⟩ := (new h now file).loadState_frame h
  rw [loaded]
  exact (healthy_new h now file).of_clients (Indexes.empty _) rfl

end Broker
end MioBroker
