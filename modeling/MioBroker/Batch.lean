import MioBroker.Connections
import MioBroker.Crash

/-!
# The events of one poll

All events of a batch are collected before the first is handled. A read or a write looks its
connection up without a check when its event comes up; in between, the events before it may
have cost the connection its entry.
-/
namespace MioBroker

open Rust

/-- `drain_client` and `flush_writes` find the connection they are called for. -/
def Op.Finds (b : Broker) : Op → Prop
  | .receive t _ => b.clients.contains t = true
  | .flush t _ => b.clients.contains t = true
  | _ => True

/-- The connection an event is about. -/
def Event.token : Event → Option Token
  | .listener => none
  | .client t _ _ => some t

namespace Pc

/-- A read of this connection is still to come in the batch. -/
def Awaits (k : Token) : Pc → Prop
  | .events todo => ∃ writable, .client k true writable ∈ todo
  | .writable _ _ todo => ∃ writable, .client k true writable ∈ todo
  | .packets _ _ _ next failed => next.Awaits k ∨ failed.Awaits k
  | .close _ next => next.Awaits k
  | _ => False

/-- Every connection has one event at most: none is still to come for the one being handled. -/
def Orderly : Pc → Prop
  | .events todo => (todo.filterMap Event.token).Nodup
  | .writable t _ todo => (t :: todo.filterMap Event.token).Nodup
  | .packets t _ _ next failed =>
    (¬next.Awaits t ∧ next.Orderly) ∧ ¬failed.Awaits t ∧ failed.Orderly
  | .close t next => ¬next.Awaits t ∧ next.Orderly
  | _ => True

theorem mem_tokens {k : Token} {writable : Bool} {todo : List Event}
    (member : .client k true writable ∈ todo) : k ∈ todo.filterMap Event.token :=
  List.mem_filterMap.mpr ⟨_, member, rfl⟩

theorem not_awaits_of_nodup {t : Token} {todo : List Event}
    (nodup : (t :: todo.filterMap Event.token).Nodup) : ¬(Pc.events todo).Awaits t := by
  rintro ⟨writable, member⟩
  exact (List.nodup_cons.mp nodup).1 (mem_tokens member)

end Pc

namespace Loop

/-- The step's call of `publish` overflows no connection whose read is still to come. -/
def Spares (s : Loop) (io : Io) : Prop :=
  ∀ k, s.pc.Awaits k → ∀ call, (s.op io).publishCall s.broker = some call → ¬call.Expels k

theorem admitted_tokens {b : Broker} {events : List Event} (admitted : eventsAdmitted b events = true) :
    (events.filterMap Event.token).Nodup ∧
      ∀ k ∈ events.filterMap Event.token, b.clients.contains k = true := by
  have both : (decide (events.filterMap Event.token).Nodup &&
      (events.filterMap Event.token).all fun k => b.clients.contains k) = true := admitted
  rw [Bool.and_eq_true, decide_eq_true_eq, List.all_eq_true] at both
  exact both

theorem orderly_afterReceive (t : Token) (next failed : Pc) (out : Outcome)
    (orderly : ¬next.Awaits t ∧ next.Orderly) (orderly' : ¬failed.Awaits t ∧ failed.Orderly) :
    (afterReceive t next failed out).Orderly ∧
      ∀ k, (afterReceive t next failed out).Awaits k → k ≠ t ∧ (next.Awaits k ∨ failed.Awaits k) := by
  cases out with
  | ok pkts =>
    refine ⟨⟨orderly, orderly'⟩, fun k due => ⟨?_, due⟩⟩
    rintro rfl
    exact due.elim orderly.1 orderly'.1
  | error e =>
    refine ⟨orderly'.2, fun k due => ⟨?_, .inr due⟩⟩
    rintro rfl
    exact orderly'.1 due

theorem spares_of_calm {s : Loop} {io : Io} (calm : s.Calm io) : s.Spares io := by
  intro k _ call made exceeds
  obtain ⟨c, found, exceeds⟩ := exceeds
  exact calm (.inl ⟨call, made, k, c, found, exceeds⟩)

section Points

variable {s : Loop} {os : Os} {t : Token} {todo : List Event} {next failed : Pc}

/-- The reads due after the step at a program point were due before, and its operation leaves
their connections alone. -/
def LeavesDue (s : Loop) (os : Os) (b : Broker) (out : Outcome) : Prop :=
  (s.pcAfter (.go os) b out).Orderly ∧ ∀ k, (s.pcAfter (.go os) b out).Awaits k →
    s.pc.Awaits k ∧ (s.op (.go os)).closing ≠ some k ∧ ∀ p, s.op (.go os) ≠ .packet k p

theorem leavesDue_event {readable writable : Bool}
    (here : s.pc = .events (.client t readable writable :: todo))
    (nodup : (t :: todo.filterMap Event.token).Nodup) (b : Broker) (out : Outcome) :
    s.LeavesDue os b out := by
  have later : ∀ k, (Pc.events todo).Awaits k → s.pc.Awaits k := by
    rintro k ⟨w, member⟩
    rw [here]
    exact ⟨w, List.mem_cons_of_mem _ member⟩
  have gone := Pc.not_awaits_of_nodup nodup
  cases readable with
  | false =>
    simp only [LeavesDue, pcAfter, op, Loop.next, here] at later ⊢
    exact ⟨nodup, fun k due => ⟨later k due, by simp [Op.closing], by simp⟩⟩
  | true =>
    -- the read of this event is the one it handles: no later event has another for it
    obtain ⟨after, due⟩ := orderly_afterReceive t (.writable t writable todo)
      (.close t (.events todo)) out ⟨gone, nodup⟩ ⟨gone, gone, (List.nodup_cons.mp nodup).2⟩
    simp only [LeavesDue, pcAfter, op, Loop.next, here, if_true] at later ⊢
    exact ⟨after, fun k there => ⟨later k ((due k there).2.elim id id), by simp [Op.closing], by simp⟩⟩

theorem leavesDue_writable {writable : Bool} (here : s.pc = .writable t writable todo)
    (nodup : (t :: todo.filterMap Event.token).Nodup) (b : Broker) (out : Outcome) :
    s.LeavesDue os b out := by
  have gone := Pc.not_awaits_of_nodup nodup
  simp only [LeavesDue, pcAfter, op, Loop.next, here]
  refine ⟨(List.nodup_cons.mp nodup).2, fun k due => ?_⟩
  have other : t ≠ k := by
    rintro rfl
    exact gone due
  -- the operation is a flush of the connection, or none that matters
  refine ⟨due, ?_, ?_⟩ <;>
  · split
    · split
      · split <;> simp [Op.closing, other]
      · simp [Op.closing]
    · simp [Op.closing]

theorem leavesDue_packets {pkts : List Packet} {n : Nat} (here : s.pc = .packets t pkts n next failed)
    (orderly : s.pc.Orderly) (b : Broker) (out : Outcome) : s.LeavesDue os b out := by
  rw [here] at orderly
  obtain ⟨⟨gone, orderly⟩, gone', orderly'⟩ := orderly
  cases pkts with
  | nil =>
    simp only [LeavesDue, pcAfter, op, Loop.next, here]
    exact ⟨orderly, fun k due => ⟨.inl due, by simp [Op.closing], by simp⟩⟩
  | cons p pkts =>
    simp only [LeavesDue, pcAfter, op, Loop.next, here]
    -- the packet is the connection's own, and neither continuation reads that connection again
    cases out with
    | ok _ =>
      refine ⟨⟨⟨gone, orderly⟩, gone', orderly'⟩, fun k due => ⟨due, by simp [Op.closing],
        fun q same => ?_⟩⟩
      cases same
      exact due.elim gone gone'
    | error e =>
      refine ⟨orderly', fun k due => ⟨.inr due, by simp [Op.closing], fun q same => ?_⟩⟩
      cases same
      exact gone' due

theorem leavesDue_close (here : s.pc = .close t next) (orderly : s.pc.Orderly) (b : Broker)
    (out : Outcome) : s.LeavesDue os b out := by
  rw [here] at orderly
  obtain ⟨gone, orderly⟩ := orderly
  simp only [LeavesDue, pcAfter, op, Loop.next, here]
  refine ⟨orderly, fun k due => ⟨due, fun closing => ?_, by simp⟩⟩
  cases closing
  exact gone due

end Points

/-- A read that is due after a step was due before, or has just been polled; the step neither
handles a packet of that connection nor closes it. -/
theorem orderly_step {s t : Loop} {io : Io} (orderly : s.pc.Orderly) (admitted : s.admits io = true)
    (done : s.step io = .ok t) : t.pc.Orderly ∧ ∀ k, t.pc.Awaits k →
      (s.pc.Awaits k ∨
        s.broker.clients.contains k = true ∧ (s.op io).publishCall s.broker = none) ∧
        (s.op io).closing ≠ some k ∧ ∀ p, s.op io ≠ .packet k p := by
  obtain ⟨b, out, ran, rfl⟩ := step_ok.mp done
  cases io with
  | tick dt fault =>
    exact ⟨orderly, fun k due => ⟨.inl due, by simp [op, Op.closing], by simp [op]⟩⟩
  | go os =>
    have kept : s.LeavesDue os b out → (s.pcAfter (.go os) b out).Orderly ∧
        ∀ k, (s.pcAfter (.go os) b out).Awaits k →
          (s.pc.Awaits k ∨ s.broker.clients.contains k = true ∧
            (s.op (.go os)).publishCall s.broker = none) ∧
          (s.op (.go os)).closing ≠ some k ∧ ∀ p, s.op (.go os) ≠ .packet k p :=
      fun leaves => ⟨leaves.1, fun k due => ⟨.inl (leaves.2 k due).1, (leaves.2 k due).2⟩⟩
    cases here : s.pc with
    | poll =>
      -- the only point where reads become due: those of the events just reported
      simp only [admits, here, Bool.and_eq_true] at admitted
      obtain ⟨nodup, connected⟩ := admitted_tokens admitted.1
      simp only [pcAfter, op, Loop.next, here, Pc.Orderly]
      refine ⟨nodup, fun k due => ⟨.inr ⟨?_, rfl⟩, by simp [Op.closing], by simp⟩⟩
      obtain ⟨writable, member⟩ := due
      exact connected k (Pc.mem_tokens member)
    | events todo =>
      rw [here] at orderly
      cases todo with
      | nil => simp [pcAfter, Loop.next, here, Pc.Orderly, Pc.Awaits]
      | cons e todo =>
        cases e with
        | listener =>
          simp only [pcAfter, op, Loop.next, here]
          split
          · exact ⟨orderly, fun k due => ⟨.inl due, by simp [Op.closing], by simp⟩⟩
          · refine ⟨orderly, fun k due => ⟨.inl ?_, by simp [Op.closing], by simp⟩⟩
            obtain ⟨writable, member⟩ := due
            exact ⟨writable, List.mem_cons_of_mem _ member⟩
        | client k readable writable => exact here ▸ kept (leavesDue_event here orderly b out)
    | writable k writable todo =>
      rw [here] at orderly
      exact here ▸ kept (leavesDue_writable here orderly b out)
    | packets k todo n next failed => exact here ▸ kept (leavesDue_packets here orderly b out)
    | close k next => exact here ▸ kept (leavesDue_close here orderly b out)
    | flushPending todo scan =>
      cases todo <;> simp [pcAfter, Loop.next, here, Pc.Orderly, Pc.Awaits]
    | sweep todo scan =>
      cases todo with
      | nil => simp [pcAfter, Loop.next, here, Pc.Orderly, Pc.Awaits]
      | cons k todo =>
        simp only [pcAfter, op, Loop.next, here]
        split
        · -- the forced reads do not wait for an event
          have none_due : ∀ j, ¬(Pc.close k (.sweep todo scan)).Awaits j := fun j due => due
          have idle : ∀ j, ¬(Pc.sweep todo scan).Awaits j := fun j due => due
          obtain ⟨after, due⟩ := orderly_afterReceive k (.sweep todo scan)
            (.close k (.sweep todo scan)) out ⟨idle k, trivial⟩ ⟨none_due k, idle k, trivial⟩
          exact ⟨after, fun j here => ((due j here).2.elim (idle j) (none_due j)).elim⟩
        · simp [Pc.Orderly, Pc.Awaits]
    | flushForwards todo scan =>
      cases todo <;> simp [pcAfter, Loop.next, here, Pc.Orderly, Pc.Awaits]
    | sysTopics scan =>
      simp only [pcAfter, Loop.next, here]
      split <;> simp [Pc.Orderly, Pc.Awaits]
    | sysPublish todo scan => cases todo <;> simp [pcAfter, Loop.next, here, Pc.Orderly, Pc.Awaits]
    | reap todo scan => cases todo <;> simp [pcAfter, Loop.next, here, Pc.Orderly, Pc.Awaits]
    | retry todo scan =>
      cases todo with
      | nil => simp [pcAfter, Loop.next, here, Pc.Orderly, Pc.Awaits]
      | cons e todo =>
        simp only [pcAfter, Loop.next, here]
        cases out <;> simp [Pc.Orderly, Pc.Awaits]
    | giveUp todo => cases todo <;> simp [pcAfter, Loop.next, here, Pc.Orderly, Pc.Awaits]
    | save => simp [pcAfter, Loop.next, here, Pc.Orderly, Pc.Awaits]

/-- Caps, index, and the connections whose reads are still to come. -/
structure Expectant (s : Loop) : Prop where
  healthy : s.broker.Healthy
  orderly : s.pc.Orderly
  connected : ∀ k, s.pc.Awaits k → ∃ c, s.broker.clients.get? k = some c

theorem expectant_initial {s : Loop} (start : s.Initial) : s.Expectant := by
  refine ⟨start.startup.healthy, ?_, fun k due => ?_⟩
  · rw [start.pc]
    trivial
  · rw [start.pc] at due
    exact due.elim

theorem Expectant.step {s t : Loop} {io : Io} (before : s.Expectant) (admitted : s.admits io = true)
    (spares : s.Spares io) (done : s.step io = .ok t) : t.Expectant := by
  obtain ⟨orderly, due⟩ := orderly_step before.orderly admitted done
  obtain ⟨b, out, ran, rfl⟩ := step_ok.mp done
  refine ⟨before.healthy.op _ ran, orderly, fun k later => ?_⟩
  obtain ⟨early | ⟨polled, silent⟩, unclosed, elsewhere⟩ := due k later
  · obtain ⟨c, found⟩ := before.connected k early
    exact Op.spares before.healthy ran (spares k early) elsewhere unclosed found
  · obtain ⟨c, found⟩ := (HashMap.contains_iff _ _).mp polled
    refine Op.spares before.healthy ran (fun call made => ?_) elsewhere unclosed found
    rw [silent] at made
    cases made

/-- The runs in which no step overflows a connection whose read is still to come. -/
abbrev SparingRun : Loop → List Io → Loop → Prop :=
  Machine.Path step fun s io => s.admits io = true ∧ s.Spares io

theorem Expectant.finds {s : Loop} (expectant : s.Expectant) (io : Io) :
    (s.op io).Finds s.broker := by
  have grounds := s.op_grounds io
  -- Where the source unwraps a lookup, the loop has checked the token just before.
  cases op : s.op io with
  | receive t r =>
    rw [op] at grounds
    rcases grounds with ⟨writable, todo, here⟩ | ⟨todo, scan, here, there⟩
    · have due : s.pc.Awaits t := here ▸ ⟨writable, List.mem_cons_self⟩
      exact (HashMap.contains_iff _ _).mpr (expectant.connected t due)
    · exact there
  | flush t os =>
    rw [op] at grounds
    exact grounds
  | _ => trivial

/-- In a run that spares the connections still to be read, every read and every write is made for
a connection that is there. -/
theorem sparing_finds (s₀ : Loop) (ios : List Io) (s : Loop) (start : s₀.Initial)
    (path : SparingRun s₀ ios s) (io : Io) : (s.op io).Finds s.broker :=
  (path.invariant Expectant (fun _ _ _ before ok done => before.step ok.1 ok.2 done)
    (expectant_initial start)).finds io

/-- The connection with the token is to be read next. -/
def reads (s : Loop) (t : Token) : Bool :=
  match s.pc with
  | .events [.client k true _] => k == t
  | _ => false

/-- A connection is accepted and read in the batch of the next poll. -/
theorem sparing_finds_read : ∃ s : Loop, s.pc.Awaits 1 ∧ (s.op (.read greeting)).Finds s.broker := by
  obtain ⟨s, path, here⟩ := exists_calm ([Io.listen, .connection] ++ List.replicate 12 Io.quiet ++
    [Io.poll [.client 1 true false]]) (fun s => s.reads 1) (by decide +kernel)
  have spares : SparingRun fresh _ s := path.mono fun s io ok => ⟨ok.1, spares_of_calm ok.2⟩
  refine ⟨s, ?_, sparing_finds fresh _ s fresh_initial spares (Io.read greeting)⟩
  rw [reads] at here
  split at here
  next t w at_events =>
    rw [at_events]
    have same : t = 1 := by simpa using here
    exact ⟨w, same ▸ List.mem_cons_self⟩
  next => cases here

/-! ### An event too late -/

/-- Both of two connections are to be read next, the second one first. -/
def readsPair (s : Loop) : Bool :=
  match s.pc with
  | .events [.client 2 true false, .client 1 true false] => true
  | _ => false

/-- Two connections; client `a` has subscribed, and both have something to be read. -/
theorem exists_pair : ∃ (ios : List Io) (s : Loop) (c : Client), after ios = some s ∧
    s.pc = .events [.client 2 true false, .client 1 true false] ∧ Filled 0 s.broker ∧
    s.broker.clients.get? 2 = some c ∧ c.readBuf = [] := by
  obtain ⟨s, done, checked⟩ := exists_after ([Io.listen, .connection, .connection] ++
    List.replicate 14 Io.quiet ++ [Io.poll [.client 1 true false], .read greeting] ++
    List.replicate 18 Io.quiet ++ [Io.poll [.client 2 true false, .client 1 true false]]) (fun s =>
    s.readsPair && Filled.check s.broker &&
      (s.broker.clients.get? 2).any fun c : Client => decide (c.readBuf = []))
    (by decide +kernel)
  simp only [Bool.and_eq_true, Option.any_eq_true, decide_eq_true_eq] at checked
  obtain ⟨⟨here, filled⟩, c, found, buf⟩ := checked
  rw [readsPair] at here
  split at here
  next at_events =>
    exact ⟨_, s, c, done, at_events, .of_check (after_reachable done).healthy filled, found, buf⟩
  next => cases here

/-- The event of a connection brings a batch of packets. -/
theorem read_step {s : Loop} {t : Token} {writable : Bool} {todo : List Event} {chunk : Bytes}
    {b : Broker} {pkts : List Packet} (here : s.pc = .events (.client t true writable :: todo))
    (received : s.broker.receive t (.ok chunk) = .ok (b, .ok pkts)) :
    s.step (.read chunk) = .ok { s with
      broker := b
      pc := .packets t pkts pkts.length (.writable t writable todo) (.close t (.events todo)) } := by
  rw [step_ok]
  refine ⟨b, .ok pkts, ?_, ?_⟩
  · simp [op, next, Io.read, here, Op.run, received]
  · simp [pcAfter, next, Io.read, here, afterReceive]

/-- The second connection floods the first, whose event is still to come. -/
theorem read_of_gone :
    ¬∀ s : Loop, s.Reachable → ∀ io, s.admits io = true → (s.op io).Finds s.broker := by
  intro claim
  obtain ⟨ios, s, c, done, here, filled, found, empty⟩ := exists_pair
  obtain ⟨b₁, received, filled₁, c₁, found₁⟩ := filled.receive found empty flood _
    (by decide +kernel) (by decide +kernel) frame_flood
  obtain ⟨b₂, fill, full, c₂, found₂⟩ := filled₁.publishes found₁ 256 (by decide)
  obtain ⟨b₃, last, -, lost, -⟩ := full.overflow found₂
  have all : Broker.dispatchAll 2 (List.replicate 257 selfPublish) b₁ = .ok (b₃, .ok ()) := by
    rw [List.replicate_succ', Broker.dispatchAll_append fill, Broker.dispatchAll, last]
    rfl
  -- from here on the batch is only a list of packets
  generalize List.replicate 257 selfPublish = pkts at received all
  have short : flood.length ≤ 65536 := by decide +kernel
  have admitted : s.admits (.read flood) = true := by simp [admits, Io.read, here, short]
  have flooded := ((after_path done).snoc _ admitted (read_step here received)).append
    (packets_path _ [] _ (by rw [List.append_nil]) all).1
  -- the end of the batch, and the event's other half
  have ended := (flooded.snoc .quiet rfl rfl).snoc .quiet rfl rfl
  have there : b₃.clients.contains 1 = true := claim _ ⟨_, _, fresh_initial, ended⟩ .quiet rfl
  simp [HashMap.contains, lost.gone] at there

end Loop
end MioBroker
