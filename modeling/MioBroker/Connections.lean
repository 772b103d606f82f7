import MioBroker.Overflow

/-!
# Runs in which nothing overflows

As long as `deliver_to` erases no connection, a connection leaves the client map through
`remove_client` only, and the sender of a batch is there until the batch is handled.
-/
namespace MioBroker

open Rust

/-- An act keeps a connection that it does not erase inside `deliver_to` and does not drop. -/
theorem Act.stays {a : Act} {b b' : Broker} (healthy : b.Healthy) (done : a.run b = .ok b')
    {k : Token} (spared : ¬a.ErasesAt b k) (undropped : a ≠ .drop k) {c : Client}
    (before : b.clients.get? k = some c) : ∃ d, b'.clients.get? k = some d := by
  cases a with
  | change t ch =>
    obtain ⟨e, -, rfl⟩ := Broker.modifyClient_found done
    simp only [HashMap.get?_insert]
    split
    · exact ⟨_, rfl⟩
    · exact ⟨c, before⟩
  | deliver t topic payload qos retain =>
    cases done
    by_cases same : k = t
    · subst same
      cases result : c.offer b.now topic payload qos retain with
      | queued d =>
        rw [b.deliverTo_queued k topic payload qos retain c d before result]
        exact ⟨d, HashMap.get?_insert_self _ _ _⟩
      | refused =>
        rw [b.deliverTo_refused k topic payload qos retain c before result]
        exact ⟨c, before⟩
      | dropped => exact absurd ⟨rfl, c, before, result⟩ spared
    · exact ⟨c, by rw [b.deliverTo_get?_ne t k topic payload qos retain same, before]⟩
  -- A publish loses a client only where serving it fails.
  | publish topic payload qos retain =>
    have spec := Act.publish_ok healthy.indexed done
    refine Option.ne_none_iff_exists'.mp fun gone => spared ⟨c, before, ?_⟩
    rw [← before, ← spec.slots k]
    exact gone
  | accept h₁ h₂ =>
    cases done
    simp only [Broker.accept, HashMap.get?_insert]
    split
    · exact ⟨_, rfl⟩
    · exact ⟨c, before⟩
  | drop t =>
    cases done
    obtain ⟨_, _, frame⟩ := b.dropClient_frame t
    -- Another client is dropped, and the tables around this one change.
    have other : k ≠ t := fun same => undropped (by rw [same])
    exact ⟨c, by rw [frame]; exact (HashMap.get?_erase_ne _ other).trans before⟩
  | _ =>
    rw [(Act.framed healthy done).clients trivial]
    exact ⟨c, before⟩

/-- The connection an operation may close. -/
def Op.closing : Op → Option Token
  | .remove t => some t
  | .flush t _ => some t
  | _ => none

theorem Op.closing_of_removal {op : Op} {a : Act} {t : Token} (permitted : op.permits a)
    (own : a = .persist t ∨ a = .drop t ∨ ∃ will, a = .logWill t will) : op.closing = some t := by
  rcases Op.permits_removal permitted own with rfl | ⟨ws, rfl⟩ <;> rfl

/-- What every act of an operation keeps, if none of them erases a connection. -/
theorem Op.invariant {op : Op} {b b' : Broker} {out : Outcome} (healthy : b.Healthy)
    (done : op.run b = .ok (b', out)) (calm : ¬op.Overflows b) (inv : Broker → Prop)
    (kept : ∀ s a s', s.Healthy → inv s → op.conforms b s a → ¬a.Erases s → a.run s = .ok s' → inv s')
    (start : inv b) : inv b' := by
  refine (op.acts healthy done).keeps healthy inv (fun s a s' healthy holds ok next => ?_) start
  exact kept s a s' healthy holds ok (fun erased => calm (Broker.conforms_erases healthy ok erased)) next

/-- An operation that overflows nothing keeps every connection it does not close. -/
theorem Op.stays {op : Op} {b b' : Broker} {out : Outcome} (healthy : b.Healthy)
    (done : op.run b = .ok (b', out)) (calm : ¬op.Overflows b) {k : Token}
    (unclosed : op.closing ≠ some k) {c : Client} (before : b.clients.get? k = some c) :
    ∃ d, b'.clients.get? k = some d := by
  refine op.invariant healthy done calm (fun s => ∃ d, s.clients.get? k = some d) ?_ ⟨c, before⟩
  rintro s a s' healthy ⟨d, found⟩ ok spared next
  exact Act.stays healthy next (fun erased => spared erased.erases)
    (fun same => unclosed (Op.closing_of_removal (same ▸ ok.1) (.inr (.inl rfl)))) found

/-- An operation keeps a connection that its call of `publish` does not overflow, that it does
not close and whose packet it does not handle. -/
theorem Op.spares {op : Op} {b b' : Broker} {out : Outcome} (healthy : b.Healthy)
    (done : op.run b = .ok (b', out)) {k : Token}
    (fits : ∀ call, op.publishCall b = some call → ¬call.Expels k)
    (elsewhere : ∀ p, op ≠ .packet k p) (unclosed : op.closing ≠ some k) {c : Client}
    (before : b.clients.get? k = some c) : ∃ d, b'.clients.get? k = some d := by
  refine ((op.acts healthy done).invariant
    (fun s => s.Healthy ∧ ∃ d, s.clients.get? k = some d) ?_ ⟨healthy, c, before⟩).2
  rintro s a s' ⟨healthy, d, found⟩ ok next
  refine ⟨healthy.act a next, Act.stays healthy next (fun erased => ?_)
    (fun same => unclosed (Op.closing_of_removal (same ▸ ok.1) (.inr (.inl rfl)))) found⟩
  -- Deliveries come from packets of the client itself, and forwards from publishes.
  cases a with
  | deliver t topic payload qos retain =>
    obtain ⟨rfl, -⟩ := erased
    obtain ⟨p, same, -⟩ := Op.permits_deliver ok.1
    exact elsewhere p same
  | publish topic payload qos retain =>
    obtain ⟨e, found, gone⟩ := erased
    have capped := healthy.capped k e found
    exact fits _ ok.2
      ⟨e, found, (Client.serve_eq_none_iff _ _ _ _ e capped.queue capped.window).mp gone⟩
  | _ => exact erased.elim

/-- A read that went through found its connection. -/
theorem Broker.receive_present {b b' : Broker} {t : Token} {r : ReadResult} {out : Outcome}
    (healthy : b.Healthy) (done : b.receive t r = .ok (b', out)) :
    ∃ c, b'.clients.get? t = some c := by
  have found : ∃ c, b.clients.get? t = some c := by
    simp only [Broker.receive] at done
    obtain ⟨⟨d, chunk⟩, first, -⟩ := Run.bind_ok.mp done
    simp only [Broker.readChunk] at first
    obtain ⟨c, found, -⟩ := Run.bind_ok.mp first
    exact ⟨c, Run.unwrap_ok found⟩
  obtain ⟨c, found⟩ := found
  have calm : ¬(Op.receive t r).Overflows b := by
    rintro (⟨call, made, -⟩ | ⟨c, made, -⟩)
    · cases made
    · cases made
  have ran : (Op.receive t r).run b = .ok (b', out) := done
  exact Op.stays healthy ran calm (fun same => by cases same) found

namespace Pc

/-- No batch is being handled, now or after the closing that is due. -/
def Idle : Pc → Prop
  | .packets _ _ _ _ _ => False
  | .close _ next => next.Idle
  | _ => True

/-- The sender of the batch being handled is connected. -/
def Attended (b : Broker) : Pc → Prop
  | .packets t _ _ next failed => (∃ c, b.clients.get? t = some c) ∧ next.Idle ∧ failed.Idle
  | .close _ next => next.Idle
  | _ => True

theorem attended_of_idle (b : Broker) {pc : Pc} (idle : pc.Idle) : pc.Attended b := by
  cases pc with
  | packets t todo n next failed => exact idle.elim
  | close t next => exact idle
  | _ => trivial

end Pc

namespace Loop

/-- The step overflows no connection. -/
def Calm (s : Loop) (io : Io) : Prop := ¬(s.op io).Overflows s.broker

theorem attended_afterReceive {b : Broker} {t : Token} {next failed : Pc} (out : Outcome)
    (found : ∃ c, b.clients.get? t = some c) (idle : next.Idle) (idle' : failed.Idle) :
    (afterReceive t next failed out).Attended b := by
  cases out with
  | ok pkts => exact ⟨found, idle, idle'⟩
  | error e => exact Pc.attended_of_idle b idle'

theorem attended_step {s t : Loop} {io : Io} (healthy : s.broker.Healthy)
    (attended : s.pc.Attended s.broker) (calm : s.Calm io) (done : s.step io = .ok t) :
    t.pc.Attended t.broker := by
  obtain ⟨b, out, ran, rfl⟩ := step_ok.mp done
  simp only
  cases io with
  | tick dt fault =>
    cases ran
    simp only [pcAfter]
    cases here : s.pc <;> simp only [here, Pc.Attended] at attended ⊢
    · exact attended
    · exact attended
  | go os =>
    simp only [pcAfter, op, Calm] at ran calm ⊢
    -- Only a batch expects its client, so the cases that matter are those that enter one.
    cases here : s.pc with
    | poll => simp only [next, here, Pc.Attended]
    | events todo =>
      cases todo with
      | nil => simp only [next, here, Pc.Attended]
      | cons e todo =>
        cases e with
        | listener =>
          simp only [next, here]
          split <;> trivial
        | client k readable writable =>
          cases readable with
          | false => simp [next, here, Pc.Attended]
          | true =>
            simp only [next, here, if_true] at ran ⊢
            exact attended_afterReceive out (Broker.receive_present healthy ran) trivial trivial
    | writable k writable todo => simp only [next, here, Pc.Attended]
    | packets k todo n next' failed =>
      rw [here] at attended
      obtain ⟨⟨c, found⟩, idle, idle'⟩ := attended
      cases todo with
      | nil =>
        simp only [next, here]
        exact Pc.attended_of_idle b idle
      | cons p todo =>
        simp only [next, here] at ran calm ⊢
        cases out with
        | error e => exact Pc.attended_of_idle b idle'
        | ok pkts =>
          exact ⟨Op.stays healthy ran calm (fun same => by cases same) found, idle, idle'⟩
    | close k next' =>
      rw [here] at attended
      simp only [next, here]
      exact Pc.attended_of_idle b attended
    | flushPending todo scan => cases todo <;> simp only [next, here, Pc.Attended]
    | sweep todo scan =>
      cases todo with
      | nil => simp only [next, here, Pc.Attended]
      | cons k todo =>
        simp only [next, here] at ran ⊢
        split at ran
        next there =>
          rw [if_pos there]
          exact attended_afterReceive out (Broker.receive_present healthy ran) trivial trivial
        next absent =>
          rw [if_neg absent]
          trivial
    | flushForwards todo scan => cases todo <;> simp only [next, here, Pc.Attended]
    | sysTopics scan =>
      simp only [next, here]
      split <;> trivial
    | sysPublish todo scan => cases todo <;> simp only [next, here, Pc.Attended]
    | reap todo scan => cases todo <;> simp only [next, here, Pc.Attended]
    | retry todo scan =>
      cases todo with
      | nil => simp only [next, here, Pc.Attended]
      | cons e todo =>
        simp only [next, here]
        cases out <;> trivial
    | giveUp todo => cases todo <;> simp only [next, here, Pc.Attended]
    | save => simp only [next, here, Pc.Attended]

/-- The states of runs in which nothing overflows. -/
abbrev CalmRun : Loop → List Io → Loop → Prop :=
  Machine.Path step fun s io => s.admits io = true ∧ s.Calm io

theorem op_packet {s : Loop} {io : Io} {t : Token} {p : Packet} (op : s.op io = .packet t p) :
    ∃ todo n next failed, s.pc = .packets t (p :: todo) n next failed := by
  have grounds := s.op_grounds io
  rw [op] at grounds
  exact grounds

/-- What holds along a run in which nothing overflows: caps, index, tokens, and the sender of
the batch being handled. -/
structure Sane (s : Loop) : Prop where
  healthy : s.broker.Healthy
  numbered : s.broker.Numbered
  attended : s.pc.Attended s.broker

theorem sane_initial {s : Loop} (start : s.Initial) : s.Sane := by
  refine ⟨start.startup.healthy, Broker.numbered_startup start.startup, ?_⟩
  rw [start.pc]
  trivial

theorem Sane.step {s t : Loop} {io : Io} (sane : s.Sane) (calm : s.Calm io)
    (done : s.step io = .ok t) : t.Sane := by
  have attended := attended_step sane.healthy sane.attended calm done
  obtain ⟨b, out, ran, rfl⟩ := step_ok.mp done
  refine ⟨sane.healthy.op _ ran, ?_, attended⟩
  exact sane.numbered.op sane.healthy ran

theorem CalmRun.sane {s t : Loop} {ios : List Io} (path : CalmRun s ios t) (sane : s.Sane) : t.Sane :=
  path.invariant Sane (fun _ _ _ before ok done => before.step ok.2 done) sane

/-- A check for calm steps. -/
def calmly (s : Loop) (io : Io) : Bool :=
  (((s.op io).publishCall s.broker).all fun call => call.broker.clients.iter.all fun e =>
    let reliable := Client.reliableCount (call.broker.forwards e.1 call.topic call.qos)
    decide (e.2.inFlight.size + reliable ≤ IN_FLIGHT_CAP ∧ e.2.reliable + reliable ≤ WRITE_QUEUE_CAP)) &&
  ((s.op io).sender s.broker).all fun c => !overrun c.inFlight.size c.reliable c.writeQueue.length
    (((s.op io).messages s.broker).map fun m => m.2.2)

theorem calm_of_calmly {s : Loop} {io : Io} (checked : s.calmly io = true) : s.Calm io := by
  simp only [calmly, Bool.and_eq_true, Option.all_eq_true, List.all_eq_true, decide_eq_true_eq]
    at checked
  rintro (⟨call, made, t, c, found, exceeds⟩ | ⟨c, sender, exceeds⟩)
  · have fits := checked.1 call made (t, c) ((HashMap.mem_iter _ _ _).mpr found)
    simp only at fits
    omega
  · have fits := checked.2 _ sender
    simp [exceeds] at fits

theorem exists_calm (ios : List Io) (check : Loop → Bool)
    (passed : (Machine.runChecked step (fun s io => s.admits io && s.calmly io) fresh ios).any check =
      true) : ∃ s, CalmRun fresh ios s ∧ check s = true := by
  obtain ⟨s, done, checked⟩ := (Option.any_eq_true _ _).mp passed
  refine ⟨s, (Machine.runChecked_path _ _ _ _ _ done).mono fun s io ok => ?_, checked⟩
  rw [Bool.and_eq_true] at ok
  exact ⟨ok.1, calm_of_calmly ok.2⟩

end Loop
end MioBroker
