import MioBroker.Discipline
import MioBroker.Duties

/-!
# How often a message is sent again

The scan chooses the messages that have tries left, each of them once, and they are worked off one by
one. So no message gets more tries than it is granted, whatever is acknowledged and whatever ids are
used again in between.
-/
namespace MioBroker

open Rust

namespace Client

variable {c d : Client} {n : Nat} {pid : UInt16}

/-- What is in the window under this id was sent again fewer than `n` times. -/
def Tried (c : Client) (n : Nat) (pid : UInt16) : Prop := ∀ e, c.inFlight.get? pid = some e → e.retries < n

theorem Tried.change (tried : c.Tried n pid) (now : Instant) {ch : Change}
    (other : ∀ pkt scanned, ch ≠ .retry pid pkt scanned) (positive : 0 < n) : (ch.apply now c).Tried n pid := by
  intro e after
  by_cases received : ch = .pubrec pid
  · -- PUBREC starts the count of its PUBREL.
    subst received
    simp only [Change.apply, Client.pubrec] at after
    split at after
    next f found =>
      split at after
      · rw [inFlight_reply, HashMap.get?_insert_self] at after
        cases after
        exact positive
      · exact tried e after
    next => exact tried e after
  · rcases c.entry_change now ch pid with same | ⟨-, gone⟩ | ⟨same, -⟩ | ⟨pkt, scanned, f, same, -⟩
    · exact tried e (same.symm.trans after)
    · cases gone.symm.trans after
    · exact absurd same received
    · exact absurd same (other pkt scanned)

theorem Tried.retry (tried : c.Tried n pid) (pid' : UInt16) (pkt : Bytes) (now scanned : Instant) :
    ((Change.retry pid' pkt scanned).apply now c).Tried (n + 1) pid := by
  intro e after
  rcases c.entry_change now (.retry pid' pkt scanned) pid with same | ⟨acked, -⟩ | ⟨received, -⟩ |
    ⟨_, _, f, -, found, same⟩
  · exact Nat.lt_succ_of_lt (tried e (same.symm.trans after))
  · cases acked
  · cases received
  · cases same.symm.trans after
    exact Nat.succ_lt_succ (tried f found)

theorem Tried.offer (tried : c.Tried n pid) (positive : 0 < n) {now : Instant} {topic : Str}
    {payload : Bytes} {qos : UInt8} {retain : Bool} (done : c.offer now topic payload qos retain = .queued d) :
    d.Tried n pid := by
  by_cases unreliable : qos = 0
  · subst unreliable
    rw [Tried, (offer_qos0_counts c d now topic payload retain done).2.1]
    exact tried
  · obtain ⟨k, next, queue, -, -, -, rfl, -⟩ :=
      offer_reliable c d now topic payload qos retain unreliable done
    intro e after
    rw [HashMap.get?_insert] at after
    split at after
    · cases after
      exact positive
    · exact tried e after

end Client

/-- Only a retransmission under this id counts. -/
theorem Op.tried {op : Op} {b b' : Broker} {out : Outcome} {t : Token} {pid : UInt16} {n : Nat}
    (healthy : b.Healthy) (done : op.run b = .ok (b', out)) (positive : 0 < n)
    (other : ∀ pkt now, op ≠ .retry t pid pkt now)
    (start : ∀ c, b.clients.get? t = some c → c.Tried n pid) :
    ∀ d, b'.clients.get? t = some d → d.Tried n pid := by
  refine (op.acts healthy done).keeps healthy
    (fun s => ∀ d, s.clients.get? t = some d → d.Tried n pid) ?_ start
  intro s a s' healthy tried ok next d found
  rcases Act.survivor healthy next found with ⟨h₁, h₂, -, -, rfl⟩ | ⟨c, before, ⟨ch, rfl, rfl⟩ | fed⟩
  · intro e inWindow
    simp [Client.accepted] at inWindow
  · refine (tried c before).change s.now (fun pkt scanned same => ?_) positive
    subst same
    exact other pkt scanned (Op.permits_retry ok.1)
  · exact fed.invariant (fun c => c.Tried n pid) (fun c d topic payload qos retain _ kept queued =>
      kept.offer positive queued) (tried c before)

/-- A retransmission counts once. -/
theorem Broker.retry_tried {b b' : Broker} {out : Outcome} {t : Token} {pid : UInt16} {pkt : Bytes}
    {now : Instant} {n : Nat} (done : b.retry t pid pkt now = (b', out))
    (start : ∀ c, b.clients.get? t = some c → c.Tried n pid) :
    ∀ d, b'.clients.get? t = some d → d.Tried (n + 1) pid := by
  intro d after
  simp only [retry] at done
  split at done
  next c found =>
    have changed : b'.clients.get? t = some ((Change.retry pid pkt now).apply b.now c) := by
      simp only [Change.apply]
      rcases queued : c.queueQos1 pkt with ⟨e, ⟨⟨⟩⟩ | ⟨⟨⟩⟩⟩
      all_goals
        rw [queued] at done
        cases done
        exact HashMap.get?_insert_self _ _ _
    cases changed.symm.trans after
    exact (start c found).retry pid pkt b.now now
  next gone =>
    cases done
    cases gone.symm.trans after

/-- What is still to be sent again, each entry once. -/
def Pc.repeats : Pc → List (Token × UInt16 × Bytes)
  | .packets _ _ _ next _ => next.repeats
  | .close _ next => next.repeats
  | .flushPending _ scan => scan.retry
  | .sweep _ scan => scan.retry
  | .flushForwards _ scan => scan.retry
  | .sysTopics scan => scan.retry
  | .sysPublish _ scan => scan.retry
  | .reap _ scan => scan.retry
  | .retry todo _ => todo
  | _ => []

namespace Loop

variable {s s' : Loop} {io : Io}

theorem repeats_afterReceive {t : Token} {next failed : Pc} (out : Outcome)
    (same : failed.repeats = next.repeats) : (afterReceive t next failed out).repeats = next.repeats := by
  cases out with
  | ok pkts => rfl
  | error _ => exact same

/-- The list comes from the scan, and only its front is taken off. -/
theorem repeats_pcAfter (formed : s.pc.Formed) (io : Io) (b : Broker) (out : Outcome) :
    (s.pcAfter io b out).repeats.Sublist s.pc.repeats ∨
      s.pc = .events [] ∧ (s.pcAfter io b out).repeats = (b.scan s.retryAfter).retry := by
  cases io with
  | tick dt fault => exact .inl (List.Sublist.refl _)
  | go os =>
    simp only [pcAfter]
    cases here : s.pc with
    | events todo =>
      cases todo with
      | nil => exact .inr ⟨rfl, by simp only [next, here, Pc.repeats]⟩
      | cons e todo =>
        refine .inl (List.sublist_nil.mpr ?_)
        cases e with
        | listener =>
          simp only [next, here]
          split <;> rfl
        | client t readable writable =>
          simp only [next, here]
          split
          · exact repeats_afterReceive out rfl
          · rfl
    | packets t todo n next' failed =>
      rw [here] at formed
      refine .inl ?_
      cases todo with
      | nil =>
        simp only [next, here]
        exact List.Sublist.refl _
      | cons p todo =>
        simp only [next, here]
        cases out with
        | ok _ => exact List.Sublist.refl _
        | error _ =>
          rcases formed with ⟨writable, todo, rfl, rfl⟩ | ⟨todo, scan, rfl, rfl⟩ <;>
            exact List.Sublist.refl _
    | sweep todo scan =>
      refine .inl ?_
      cases todo with
      | nil =>
        simp only [next, here]
        exact List.Sublist.refl _
      | cons t todo =>
        simp only [next, here]
        split
        · change (afterReceive t (.sweep todo scan) (.close t (.sweep todo scan)) out).repeats.Sublist scan.retry
          rw [repeats_afterReceive out (show (Pc.close t (.sweep todo scan)).repeats =
            (Pc.sweep todo scan).repeats from rfl)]
          exact List.Sublist.refl _
        · exact List.Sublist.refl _
    | sysTopics scan =>
      simp only [next, here]
      refine .inl ?_
      split <;> exact List.Sublist.refl _
    | retry todo scan =>
      refine .inl ?_
      cases todo with
      | nil =>
        simp only [next, here]
        exact List.Sublist.refl _
      | cons e todo =>
        simp only [next, here]
        cases out <;> exact List.sublist_cons_self e todo
    | flushPending todo scan => cases todo <;> exact .inl (by simp only [next, here]; exact List.Sublist.refl _)
    | flushForwards todo scan => cases todo <;> exact .inl (by simp only [next, here]; exact List.Sublist.refl _)
    | sysPublish todo scan => cases todo <;> exact .inl (by simp only [next, here]; exact List.Sublist.refl _)
    | reap todo scan => cases todo <;> exact .inl (by simp only [next, here]; exact List.Sublist.refl _)
    | giveUp todo => cases todo <;> exact .inl (by simp only [next, here]; exact List.Sublist.refl _)
    | _ => exact .inl (by simp only [next, here]; exact List.Sublist.refl _)

/-- What a retransmission is about. -/
def about (x : Token × UInt16 × Bytes) : Token × UInt16 := (x.1, x.2.1)

/-- The scan lists an entry once, and with a try left. -/
theorem scan_once (b : Broker) (retryAfter : Nat) : ((b.scan retryAfter).retry.map about).Nodup := by
  simp only [Broker.scan, List.map_flatMap, List.map_map]
  refine List.nodup_flatMap.mpr ⟨fun e _ => ?_, ?_⟩
  · -- The ids of one window.
    have ids : ((e.2.overdue b.now retryAfter).map Prod.fst).Nodup :=
      (List.filter_sublist.map Prod.fst).nodup e.2.inFlight.nodup_keys
    have few : (((e.2.overdue b.now retryAfter).filter fun f => f.2.retries < QOS1_MAX_RETRIES).map
        Prod.fst).Nodup := (List.filter_sublist.map Prod.fst).nodup ids
    have pairs := few.map (f := fun pid => (e.1, pid)) fun x y same => (Prod.mk.inj same).2
    rw [List.map_map] at pairs
    exact pairs
  · refine List.Pairwise.imp_of_mem ?_ (List.pairwise_map.mp b.clients.nodup_keys)
    intro x y _ _ apart p left right
    obtain ⟨_, -, rfl⟩ := List.mem_map.mp left
    obtain ⟨_, -, same⟩ := List.mem_map.mp right
    exact apart (Prod.mk.inj same).1.symm

theorem scan_tried {b : Broker} {retryAfter : Nat} {x : Token × UInt16 × Bytes}
    (listed : x ∈ (b.scan retryAfter).retry) :
    ∀ c, b.clients.get? x.1 = some c → c.Tried QOS1_MAX_RETRIES x.2.1 := by
  obtain ⟨⟨t, d⟩, there, member⟩ := List.mem_flatMap.mp listed
  obtain ⟨⟨pid, e⟩, overdue, rfl⟩ := List.mem_map.mp member
  obtain ⟨late, left⟩ := List.mem_filter.mp overdue
  have inWindow := (HashMap.mem_iter _ _ _).mp (List.mem_filter.mp late).1
  intro c found f under
  cases ((HashMap.mem_iter _ _ _).mp there).symm.trans found
  cases inWindow.symm.trans under
  simpa using left

/-- No message has used up more tries than there are, and what is still to be sent again has one left. -/
structure Limited (s : Loop) : Prop where
  healthy : s.broker.Healthy
  tried : ∀ t c, s.broker.clients.get? t = some c → ∀ pid, c.Tried (QOS1_MAX_RETRIES + 1) pid
  left : ∀ x ∈ s.pc.repeats, ∀ c, s.broker.clients.get? x.1 = some c → c.Tried QOS1_MAX_RETRIES x.2.1
  once : (s.pc.repeats.map about).Nodup

theorem limited_initial (start : s.Initial) : s.Limited := by
  refine ⟨start.startup.healthy, fun t c found => ?_, ?_, ?_⟩
  · cases (start.startup.unconnected t).symm.trans found
  · rw [start.pc]
    rintro x ⟨⟩
  · rw [start.pc]
    exact List.nodup_nil

/-- The retransmission at hand is taken off the list. -/
theorem repeats_retry {t : Token} {pid : UInt16} {pkt : Bytes} {now : Instant}
    (runs : s.op io = .retry t pid pkt now) (b : Broker) (out : Outcome) :
    s.pc.repeats = (t, pid, pkt) :: (s.pcAfter io b out).repeats := by
  have grounds := s.op_grounds io
  rw [runs] at grounds
  obtain ⟨todo, scan, here, -⟩ := grounds
  cases io with
  | tick dt fault => cases runs
  | go os =>
    simp only [pcAfter, next, here]
    cases out <;> rfl

theorem Limited.step (limited : s.Limited) (formed : s.pc.Formed) (done : s.step io = .ok s') :
    s'.Limited := by
  obtain ⟨b, out, ran, rfl⟩ := step_ok.mp done
  have healthy := limited.healthy
  -- A retransmission under another id leaves an entry alone.
  have kept : ∀ {t : Token} {pid : UInt16} {n : Nat}, 0 < n → (∀ pkt now, s.op io ≠ .retry t pid pkt now) →
      (∀ c, s.broker.clients.get? t = some c → c.Tried n pid) →
      ∀ d, b.clients.get? t = some d → d.Tried n pid := fun positive other start =>
    Op.tried healthy ran positive other start
  refine ⟨healthy.op _ ran, fun t d after pid => ?_, fun x listed => ?_, ?_⟩
  · by_cases again : ∃ pkt now, s.op io = .retry t pid pkt now
    · obtain ⟨pkt, now, runs⟩ := again
      have due : (t, pid, pkt) ∈ s.pc.repeats := by
        rw [repeats_retry runs b out]
        exact List.mem_cons_self
      rw [runs] at ran
      exact Broker.retry_tried (Except.ok.inj ran) (limited.left _ due) d after
    · exact kept (Nat.succ_pos _) (fun pkt now runs => again ⟨pkt, now, runs⟩)
        (fun c found => limited.tried t c found pid) d after
  · rcases repeats_pcAfter formed io b out with old | ⟨scanning, scanned⟩
    · refine kept (by decide) (fun pkt now runs => ?_) (limited.left x (old.subset listed))
      -- What is sent again now was listed once.
      have once := limited.once
      rw [repeats_retry runs b out, List.map_cons] at once
      exact (List.nodup_cons.mp once).1 (List.mem_map.mpr ⟨x, listed, rfl⟩)
    · rw [show Pc.repeats _ = _ from scanned] at listed
      exact scan_tried listed
  · rcases repeats_pcAfter formed io b out with old | ⟨scanning, scanned⟩
    · exact (old.map about).nodup limited.once
    · rw [show Pc.repeats _ = _ from scanned]
      exact scan_once b s.retryAfter

theorem Reachable.limited {s : Loop} (reached : s.Reachable) : s.Limited := by
  refine (Machine.Reaches.invariant (fun s => s.pc.Formed ∧ s.Limited) ?_ ?_ reached).2
  · intro s start
    refine ⟨?_, limited_initial start⟩
    rw [start.pc]
    trivial
  · rintro s io s' ⟨formed, limited⟩ - done
    refine ⟨?_, limited.step formed done⟩
    obtain ⟨b, out, -, rfl⟩ := step_ok.mp done
    exact formed_pcAfter formed io b out

/-- No message is sent again more than `QOS1_MAX_RETRIES` times in one phase: what is still to be sent
again is listed once, and has a try left. -/
theorem retries_bounded (s : Loop) (reached : s.Reachable) :
    (∀ t c, s.broker.clients.get? t = some c → ∀ pid e, c.inFlight.get? pid = some e →
      e.retries ≤ QOS1_MAX_RETRIES) ∧
    (s.pc.repeats.map about).Nodup ∧
    ∀ t pid pkt, (t, pid, pkt) ∈ s.pc.repeats → ∀ c e, s.broker.clients.get? t = some c →
      c.inFlight.get? pid = some e → e.retries < QOS1_MAX_RETRIES := by
  have limited := reached.limited
  refine ⟨fun t c found pid e inWindow => ?_, limited.once, fun t pid pkt listed c e found inWindow => ?_⟩
  · exact Nat.le_of_lt_succ (limited.tried t c found pid e inWindow)
  · exact limited.left (t, pid, pkt) listed c found e inWindow

/-- A QoS 1 message that its subscriber does not acknowledge, about to be sent for the third time. -/
theorem retries_bounded_unacknowledged : ∃ (s : Loop) (c : Client) (e : InFlight), s.Reachable ∧
    s.broker.clients.get? 1 = some c ∧ c.inFlight.get? 1 = some e ∧ s.pc.repeats.map about = [(1, 1)] ∧
    e.retries ≠ 0 ∧ e.retries < QOS1_MAX_RETRIES := by
  obtain ⟨s, done, checked⟩ := exists_after
    ([Io.listen, .connection] ++ List.replicate 3 Io.quiet ++
      [Io.read (connectBytes 2 97 ++ [0x82, 6, 0, 1, 0, 1, 116, 1, 0x32, 5, 0, 1, 116, 0, 1])] ++
      List.replicate 12 Io.quiet ++ [Io.tick (secs 11) none] ++ List.replicate 23 Io.quiet ++
      [Io.tick (secs 11) none] ++ List.replicate 14 Io.quiet)
    (fun s => decide (s.pc.repeats.map about = [(1, 1)]) &&
      (s.broker.clients.get? 1).any fun c => (c.inFlight.get? 1).any fun e => e.retries == 1)
    (by decide +kernel)
  obtain ⟨listed, checked⟩ := (Bool.and_eq_true _ _).mp checked
  have listed := of_decide_eq_true listed
  obtain ⟨c, found, window⟩ := (Option.any_eq_true _ _).mp checked
  obtain ⟨e, inWindow, once⟩ := (Option.any_eq_true _ _).mp window
  have one : e.retries = 1 := by simpa using once
  obtain ⟨⟨t, pid, pkt⟩, member, same⟩ : ∃ x ∈ s.pc.repeats, about x = (1, 1) :=
    List.mem_map.mp (listed ▸ List.mem_singleton_self _)
  cases same
  have left := (retries_bounded s (after_reachable done)).2.2 1 1 pkt member c e found inWindow
  exact ⟨s, c, e, after_reachable done, found, inWindow, listed, by simp [one], left⟩

end Loop
end MioBroker
