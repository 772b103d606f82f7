import MioBroker.Progress

/-!
# What a connection leaves behind

A reader thread that returns has taken its subscriptions with it, and its writer thread empties the
channel and ends. A reader thread that panics skips all of that.
-/
namespace MioBroker.Threaded

open Rust

theorem survivors_subset (topic : Str) (subs : List Subscription) (answers : List TrySend) :
    survivors topic subs answers ⊆ subs := by
  induction subs generalizing answers with
  | nil => exact List.Subset.refl _
  | cons s subs ih =>
    simp only [survivors]
    split
    · split
      · exact List.subset_cons_of_subset _ (ih _)
      · exact List.cons_subset_cons _ (ih _)
      · exact List.cons_subset_cons _ (ih _)
    · exact List.cons_subset_cons _ (ih _)

/-- A critical section takes subscriptions of others away, and adds some of its own connection. -/
theorem Underway.effect_subs {start b b' : Broker} {t : Token} {job : Job}
    {attempts : List (Subscription × TrySend)} {a : Action} {crit : List Action}
    (underway : Underway start t job attempts (a :: crit) b) (effect : a.effect t b = some b') :
    ∀ s ∈ b'.subs, s ∈ b.subs ∧ (a = .disconnectClient → s.token ≠ t) ∨
      ∃ filter qos, a = .subscribe filter qos ∧ s.tx = t ∧ s.token = t := by
  intro s member
  cases a with
  | retain topic pkt left out =>
    obtain ⟨payload, seen, -, -, -, rfl, retaining⟩ := underway.retaining
    cases left with
    | cons u left => cases effect
    | nil =>
      cases effect
      refine .inl ⟨?_, fun same => by cases same⟩
      have kept : s ∈ out.kept := member
      rw [retaining.kept] at kept
      rw [retaining.cut]
      exact List.mem_append_left _ (survivors_subset _ _ _ kept)
  | subscribe filter qos =>
    cases effect
    rcases List.mem_append.mp member with old | new
    · exact .inl ⟨old, fun same => by cases same⟩
    · cases List.mem_singleton.mp new
      exact .inr ⟨filter, qos, rfl, rfl, rfl⟩
  | unsubscribe filter =>
    cases effect
    exact .inl ⟨(List.mem_filter.mp member).1, fun same => by cases same⟩
  | disconnectClient =>
    cases effect
    obtain ⟨old, other⟩ := List.mem_filter.mp member
    exact .inl ⟨old, fun _ => by simpa using other⟩
  | pushId cid =>
    cases effect
    exact .inl ⟨member, fun same => by cases same⟩
  | retainIds cid =>
    cases effect
    exact .inl ⟨member, fun same => by cases same⟩
  | _ => cases effect

/-- The turns a writer thread has left when nobody sends to it any more. -/
def Line.cost (l : Line) : Nat :=
  match l.writer with
  | .ended => 0
  | .waiting => 2 * l.tx.queue.length + 1
  | .writing _ => 2 * l.tx.queue.length + 2

/-- It is the turn of this writer thread. -/
def Turn.writes (t : Token) : Turn → Bool
  | .take u => u == t
  | .wrote u _ => u == t
  | .hangUp u => u == t
  | _ => false

namespace Reader

/-- Only a thread that serves its connection subscribes, and one behind its loop will leave. -/
structure Staged (r : Reader) : Prop where
  subscribes : ∀ filter qos, .subscribe filter qos ∈ r.todo → r.stage = .serving
  ended : r.stage = .returned ∨ r.stage = .panicked → r.todo = []

theorem Staged.start : Reader.start.Staged := ⟨by simp [Reader.start], fun _ => rfl⟩

/-- The thread still takes the subscriptions of its connection away, unless it panics. -/
def Leaves (r : Reader) : Prop :=
  r.stage = .serving ∨ r.stage = .panicked ∨ r.stage = .leaving ∧ .disconnectClient ∈ r.todo

theorem receive_staged {r : Reader} (stage : r.stage = .serving) (bytes : Bytes) :
    (r.receive bytes).Staged ∧ (r.receive bytes).Leaves := by
  rcases r.receive_cases bytes with ⟨asked, same⟩ | ⟨_, _, todo, _, same, -⟩ | ⟨asked, same⟩
  · rw [same]
    refine ⟨⟨?_, ?_⟩, .inr (.inr ⟨rfl, ?_⟩)⟩
    all_goals simp [leave, Job.program, Job.actions]
  · rw [same]
    exact ⟨⟨fun _ _ _ => stage, by simp [stage]⟩, .inl stage⟩
  · rw [same]
    exact ⟨⟨by simp, fun _ => rfl⟩, .inr (.inl rfl)⟩

/-- Doing what stands first. -/
theorem Staged.rest {r : Reader} (staged : r.Staged) {a : Action} {rest : List Action}
    (todo : r.todo = a :: rest) : Staged { r with todo := rest } := by
  refine ⟨fun filter qos member => staged.subscribes filter qos ?_, fun ended => ?_⟩
  · rw [todo]
    exact List.mem_cons_of_mem _ member
  · have none_left := staged.ended ended
    rw [todo] at none_left
    cases none_left

end Reader

namespace Process

/-- Every subscription belongs to a connection whose reader thread still takes it away. -/
structure Owned (p : Process) : Prop where
  staged : ∀ t r, p.readers t = some r → r.Staged
  owned : ∀ s ∈ p.broker.subs, s.tx = s.token ∧ ∃ r, p.readers s.token = some r ∧ r.Leaves

variable {p p' q : Process} {start : Broker} {t : Token} {r : Reader} {turn : Turn}

/-- One reader thread goes on. -/
theorem Owned.after (owned : p.Owned) {r' : Reader} (readers : p'.readers = p.readers)
    (staged : r'.Staged)
    (subs : ∀ s ∈ p'.broker.subs, s ∈ p.broker.subs ∧ (s.token = t → r'.Leaves) ∨
      s.tx = t ∧ s.token = t ∧ r'.Leaves) : (p'.setReader t r').Owned where
  staged u s there := by
    by_cases here : u = t
    · rw [here, setReader_self] at there
      cases there
      exact staged
    · rw [setReader_other _ _ _ _ here, readers] at there
      exact owned.staged u s there
  owned s member := by
    rcases subs s member with ⟨old, leaves⟩ | ⟨tx, token, leaves⟩
    · obtain ⟨same, s', reader, left⟩ := owned.owned s old
      refine ⟨same, ?_⟩
      by_cases here : s.token = t
      · exact ⟨r', here ▸ setReader_self _ _ _, leaves here⟩
      · exact ⟨s', by rw [setReader_other _ _ _ _ here, readers]; exact reader, left⟩
    · exact ⟨tx.trans token.symm, r', token ▸ setReader_self _ _ _, leaves⟩

theorem Owned.act (owned : p.Owned) (coherent : p.Coherent start) (reader : p.readers t = some r)
    {a : Action} {rest : List Action} (todo : r.todo = a :: rest) (acts : p.Acts t r rest a q) :
    q.Owned := by
  have staged := (owned.staged t r reader).rest todo
  have retaining : ∀ topic pkt left out, Reader.Staged
      { r with todo := .retain topic pkt left out :: rest } := by
    refine fun topic pkt left out => ⟨fun filter qos member => ?_, fun ended => ?_⟩
    · cases member with
      | tail _ member => exact staged.subscribes filter qos member
    · have none_left := (owned.staged t r reader).ended ended
      rw [todo] at none_left
      cases none_left
  -- Only `disconnectClient` is missed by the subscriptions of the connection.
  have leaves : a ≠ .disconnectClient → ∀ s ∈ p.broker.subs, s.token = t → ∀ todo, rest ⊆ todo →
      Reader.Leaves { r with todo } := by
    intro other s member token todo' kept
    obtain ⟨-, r', reader', left⟩ := owned.owned s member
    rw [token] at reader'
    cases reader.symm.trans reader'
    refine left.imp id fun left => left.imp id fun leaving => ⟨leaving.1, kept ?_⟩
    have there := leaving.2
    rw [todo] at there
    exact (List.mem_cons.mp there).resolve_left other.symm
  have same : a ≠ .disconnectClient → ∀ {p' : Process} {todo' : List Action}, p'.readers = p.readers →
      p'.broker = p.broker → rest ⊆ todo' → Reader.Staged { r with todo := todo' } →
      (p'.setReader t { r with todo := todo' }).Owned := by
    intro other p' todo' readers broker kept staged
    refine owned.after readers staged fun s member => ?_
    rw [broker] at member
    exact .inl ⟨member, fun token => leaves other s member token todo' kept⟩
  cases acts with
  | @change a b effect =>
    obtain ⟨sec, locked, rfl⟩ := coherent.inside reader todo
      (by rintro pkt rfl; cases effect) (by rintro job rfl; cases effect)
    rcases coherent.holder reader locked rfl todo with ⟨rfl, -⟩ | ⟨crit, more, rfl, -, underway⟩
    · cases effect
    have changed : Owned ({ p with broker := b }.setReader sec.token
        { r with todo := crit ++ Action.unlock :: more }) := by
      refine owned.after rfl staged fun s member => ?_
      rcases underway.effect_subs effect s member with ⟨old, taken⟩ | ⟨filter, qos, rfl, tx, token⟩
      · refine .inl ⟨old, fun token => ?_⟩
        exact leaves (fun leaves => taken leaves token) s old token _ (List.Subset.refl _)
      · have serving := (owned.staged _ r reader).subscribes filter qos (todo ▸ List.mem_cons_self)
        exact .inr ⟨tx, token, .inl serving⟩
    exact changed
  | lock free => exact same (by simp) rfl rfl (List.Subset.refl _) staged
  | publish => exact same (by simp) rfl rfl (List.subset_cons_self _ _) (retaining _ _ _ _)
  | attempt wanted tried =>
    rw [trySend_frame tried]
    exact same (by simp) rfl rfl (List.subset_cons_self _ _) (retaining _ _ _ _)
  | skip unwanted => exact same (by simp) rfl rfl (List.subset_cons_self _ _) (retaining _ _ _ _)
  | unlock => exact same (by simp) rfl rfl (List.Subset.refl _) staged
  | ignored => exact same (by simp) rfl rfl (List.Subset.refl _) staged
  | send => exact same (by simp) rfl rfl (List.Subset.refl _) staged

theorem Owned.step (owned : p.Owned) (coherent : p.Coherent start) (answered : p.Answered)
    (moves : p.Moves turn q) : q.Owned := by
  cases moves with
  | accepted =>
    constructor
    · intro t r there
      by_cases here : t = p.nextToken
      · have started : some Reader.start = some r := by
          rw [← there, here]
          exact (setReader_self _ _ _).symm
        cases started
        exact .start
      · exact owned.staged t r ((setReader_other _ _ _ _ here).symm.trans there)
    · intro s member
      obtain ⟨same, r, reader, leaves⟩ := owned.owned s member
      -- A connection that has subscriptions is not the new one.
      have other : s.token ≠ p.nextToken := by
        intro new
        rw [new, (answered.given _ le_rfl).1] at reader
        cases reader
      exact ⟨same, r, (setReader_other _ _ _ _ other).trans reader, leaves⟩
  | @receive t r bytes reader idle stage =>
    obtain ⟨staged, leaves⟩ := Reader.receive_staged stage bytes
    exact owned.after rfl staged fun s member => .inl ⟨member, fun _ => leaves⟩
  | @returns t r bytes reader idle stage =>
    refine owned.after rfl ⟨fun _ _ member => ?_, fun _ => idle⟩ fun s member => .inl ⟨member, fun token => ?_⟩
    · rw [idle] at member
      cases member
    · -- It has taken them away, as it has nothing left to do.
      obtain ⟨-, r', reader', left⟩ := owned.owned s member
      rw [token] at reader'
      cases reader.symm.trans reader'
      rcases left with serving | panicked | ⟨-, member⟩
      · rw [stage] at serving
        cases serving
      · rw [stage] at panicked
        cases panicked
      · rw [idle] at member
        cases member
  | act reader todo acts => exact owned.act coherent reader todo acts
  | _ => exact ⟨owned.staged, owned.owned⟩

theorem Reachable.owned (reached : p.Reachable) : p.Owned := by
  refine Reachable.induct ?_ ?_ reached
  · constructor
    · intro t r there
      cases there
    · intro s member
      cases member
  · intro p turn q reached owned moves
    obtain ⟨⟨start, coherent⟩, answered⟩ := reached.coherent
    exact owned.step coherent answered moves

/-- A subscription is there for a connection whose reader thread has not returned: behind its loop it
still takes its subscriptions away, and only a panic leaves them to nobody. -/
theorem subscriptions_owned (p : Process) (reached : p.Reachable) (s : Subscription)
    (member : s ∈ p.broker.subs) : s.tx = s.token ∧ ∃ r, p.readers s.token = some r ∧
      (r.stage = .serving ∨ r.stage = .panicked ∨ r.stage = .leaving ∧ .disconnectClient ∈ r.todo) :=
  reached.owned.owned s member

/-- A connection that has subscribed is sent a length of 2^63, for which there is no buffer. -/
theorem subscriptions_owned_panicked : ∃ (p : Process) (s : Subscription) (r : Reader), p.Reachable ∧
    s ∈ p.broker.subs ∧ s.tx = s.token ∧ p.readers s.token = some r ∧ r.stage = .panicked := by
  obtain ⟨p, reached, checked⟩ := exists_reachable
    (subscribed ++ [.read 1 (0x30 :: List.replicate 9 0x80 ++ [1])]) (fun p => !p.broker.subs.isEmpty &&
      p.broker.subs.all fun s => (p.readers s.token).all fun r => r.stage = .panicked) (by decide +kernel)
  obtain ⟨some_, all⟩ := (Bool.and_eq_true _ _).mp checked
  obtain ⟨s, member⟩ := List.exists_mem_of_ne_nil p.broker.subs (by simpa using some_)
  obtain ⟨own, r, reader, -⟩ := subscriptions_owned p reached s member
  have unwound := List.all_eq_true.mp all s member
  rw [reader] at unwound
  exact ⟨p, s, r, reached, member, own, reader, by simpa using unwound⟩

/-- Nobody sends to a connection whose reader thread has returned. -/
theorem Reachable.unsent (reached : p.Reachable) (reader : p.readers t = some r)
    (returned : r.stage = .returned) : ∀ s ∈ p.broker.subs, s.tx ≠ t := by
  rintro s member rfl
  obtain ⟨same, r', reader', left⟩ := reached.owned.owned s member
  rw [← same, reader] at reader'
  cases reader'
  rcases left with serving | panicked | ⟨leaving, -⟩
  · cases returned.symm.trans serving
  · cases returned.symm.trans panicked
  · cases returned.symm.trans leaving

theorem Reachable.after_return (reached : p.Reachable) (reader : p.readers t = some r)
    (returned : r.stage = .returned) {l : Line} (line : p.lines t = some l) (moves : p.Moves turn q) :
    q.readers t = some r ∧ ∃ l', q.lines t = some l' ∧ l'.accepted = l.accepted ∧
      l'.cost + (turn.writes t).toNat ≤ l.cost := by
  obtain ⟨lined, -⟩ := reached.lined
  have idle : r.todo = [] := (reached.owned.staged t r reader).ended (.inl returned)
  have unsent := reached.unsent reader returned
  -- A turn of a thread of another connection.
  have elsewhere : ∀ {u : Token} {m : Line}, t ≠ u → turn.writes t = false →
      (p.setLine u m).readers t = some r ∧ ∃ l', (p.setLine u m).lines t = some l' ∧
        l'.accepted = l.accepted ∧ l'.cost + (turn.writes t).toNat ≤ l.cost := by
    intro u m other silent
    refine ⟨reader, l, (setLine_other _ _ _ _ other).trans line, rfl, ?_⟩
    rw [silent]
    exact le_rfl
  cases moves with
  | accepted =>
    have other : t ≠ p.nextToken := by
      rintro rfl
      rw [lined.given _ le_rfl] at line
      cases line
    exact ⟨(setReader_other _ _ _ _ other).trans reader, l, (setLine_other _ _ _ _ other).trans line, rfl,
      le_rfl⟩
  | @receive u s bytes reading idle stage =>
    have other : t ≠ u := by
      rintro rfl
      cases reader.symm.trans reading
      cases returned.symm.trans stage
    exact ⟨(setReader_other _ _ _ _ other).trans reader, l, line, rfl, le_rfl⟩
  | @returns u s bytes reading idle stage =>
    have other : t ≠ u := by
      rintro rfl
      cases reader.symm.trans reading
      cases returned.symm.trans stage
    exact ⟨(setReader_other _ _ _ _ other).trans reader, l, line, rfl, le_rfl⟩
  | @act u s a rest q acting todo acts =>
    have other : t ≠ u := by
      rintro rfl
      cases reader.symm.trans acting
      cases idle.symm.trans todo
    cases acts with
    | @attempt topic pkt s left out q result wanted tried =>
      obtain ⟨⟨start, coherent⟩, -⟩ := reached.coherent
      obtain ⟨sec, locked, rfl⟩ := coherent.inside acting todo (by simp) (by simp)
      rcases coherent.holder acting locked rfl todo with ⟨same, -⟩ | ⟨crit, more, rfl, -, underway⟩
      · cases same
      obtain ⟨payload, seen, -, -, -, rfl, retaining⟩ := underway.retaining
      have apart : s.tx ≠ t := unsent s (by rw [retaining.cut]; simp)
      rcases trySend_cases tried with ⟨m, line', -, -, rfl, rfl⟩ | ⟨-, rfl⟩
      · exact ⟨(setReader_other _ _ _ _ other).trans reader, l,
          (setLine_other p _ _ _ apart.symm).trans line, rfl, le_rfl⟩
      · exact ⟨(setReader_other _ _ _ _ other).trans reader, l, line, rfl, le_rfl⟩
    | send =>
      exact ⟨(setReader_other _ _ _ _ other).trans reader, l, (setLine_other p _ _ _ other).trans line, rfl,
        le_rfl⟩
    | _ => exact ⟨(setReader_other _ _ _ _ other).trans reader, l, line, rfl, le_rfl⟩
  | @take u m pkt queue line' waiting queued =>
    by_cases mine : t = u
    · subst mine
      cases line.symm.trans line'
      refine ⟨reader, _, setLine_self _ _ _, rfl, ?_⟩
      simp [Turn.writes, Line.cost, waiting, queued]
      omega
    · exact elsewhere mine (by simpa [Turn.writes] using Ne.symm mine)
  | @wrote u m pkt line' writing =>
    by_cases mine : t = u
    · subst mine
      cases line.symm.trans line'
      refine ⟨reader, _, setLine_self _ _ _, rfl, ?_⟩
      simp [Turn.writes, Line.cost, writing]
    · exact elsewhere mine (by simpa [Turn.writes] using Ne.symm mine)
  | @broke u m pkt line' writing =>
    by_cases mine : t = u
    · subst mine
      cases line.symm.trans line'
      refine ⟨reader, _, setLine_self _ _ _, rfl, ?_⟩
      simp [Turn.writes, Line.cost, Line.close, writing]
    · exact elsewhere mine (by simpa [Turn.writes] using Ne.symm mine)
  | @hangUp u m line' waiting empty unreachable =>
    by_cases mine : t = u
    · subst mine
      cases line.symm.trans line'
      refine ⟨reader, _, setLine_self _ _ _, rfl, ?_⟩
      simp [Turn.writes, Line.cost, Line.close, waiting]
    · exact elsewhere mine (by simpa [Turn.writes] using Ne.symm mine)
  | _ => exact ⟨reader, l, line, rfl, le_rfl⟩

/-- After the return of a reader thread nothing more goes into the channel. Its writer thread writes
what is there and ends: it is never kept waiting, and it has a bounded number of turns left. -/
theorem writer_ends (p : Process) (reached : p.Reachable) (t : Token) (r : Reader) (l : Line)
    (reader : p.readers t = some r) (returned : r.stage = .returned) (line : p.lines t = some l)
    (turns : List Turn) (q : Process) (path : Machine.Path step (fun _ _ => True) p turns q) :
    ∃ l', q.lines t = some l' ∧ l'.accepted = l.accepted ∧
      l'.cost + turns.countP (Turn.writes t) ≤ l.cost ∧
      (l'.writer = .ended ∨ (∃ pkt, l'.writer = .writing pkt) ∨ q.Enabled (.take t) ∨
        q.Enabled (.hangUp t)) := by
  have later : q.Reachable := Machine.Reaches.path reached path
  have run : q.readers t = some r ∧ ∃ l', q.lines t = some l' ∧ l'.accepted = l.accepted ∧
      l'.cost + turns.countP (Turn.writes t) ≤ l.cost := by
    clear later
    induction path with
    | nil => exact ⟨reader, l, line, rfl, le_rfl⟩
    | @snoc turns u v turn path _ done ih =>
      obtain ⟨reader', l', line', accepted, cost⟩ := ih
      have before : u.Reachable := Machine.Reaches.path reached path
      obtain ⟨reader'', l'', line'', accepted', less⟩ :=
        before.after_return reader' returned line' (step_moves done)
      refine ⟨reader'', l'', line'', accepted'.trans accepted, ?_⟩
      rw [List.countP_append, List.countP_singleton]
      cases writes : turn.writes t with
      | true =>
        simp only [writes, Bool.toNat_true] at less
        simp only [if_true]
        omega
      | false =>
        simp only [writes, Bool.toNat_false] at less
        simp only [Bool.false_eq_true, if_false]
        omega
  obtain ⟨reader', l', line', accepted, cost⟩ := run
  refine ⟨l', line', accepted, cost, ?_⟩
  cases writer : l'.writer with
  | ended => exact .inl rfl
  | writing pkt => exact .inr (.inl ⟨pkt, rfl⟩)
  | waiting =>
    refine .inr (.inr ?_)
    cases queued : l'.tx.queue with
    | cons pkt queue =>
      refine .inl ?_
      simp only [Enabled, step, line', writer, queued]
      exact ⟨_, rfl⟩
    | nil =>
      -- Nobody is left to send to it.
      have unreachable : q.hasSender t = false := by
        have unsent := later.unsent reader' returned
        simp only [hasSender, reader', Option.any_some, returned]
        simpa using unsent
      refine .inr ?_
      simp only [Enabled, step, line', writer, queued, unreachable]
      exact ⟨_, rfl⟩

/-- A connection leaves with a packet in its channel. -/
theorem writer_ends_left : ∃ (q : Process) (l' : Line), q.lines 1 = some l' ∧ l'.cost ≤ 2 := by
  obtain ⟨p, reached, checked⟩ := exists_reachable
    (subscribed ++ [.read 1 [], .act 1, .act 1, .act 1, .act 1, .read 1 []])
    (fun p => ((p.readers 1).any fun r => r.stage == .returned) && ((p.lines 1).any fun l => l.cost == 3) &&
      (Machine.runChecked step (fun _ _ => true) p [.take 1]).any fun _ => true) (by decide +kernel)
  obtain ⟨both, ran⟩ := (Bool.and_eq_true _ _).mp checked
  obtain ⟨left, waits⟩ := (Bool.and_eq_true _ _).mp both
  obtain ⟨r, reader, returned⟩ := (Option.any_eq_true _ _).mp left
  obtain ⟨l, line, cost⟩ := (Option.any_eq_true _ _).mp waits
  obtain ⟨q, path, -⟩ := exists_path p _ _ ran
  obtain ⟨l', line', -, less, -⟩ :=
    writer_ends p reached 1 r l reader (by simpa using returned) line _ q path
  refine ⟨q, l', line', ?_⟩
  rw [show l.cost = 3 by simpa using cost] at less
  have one : [Turn.take 1].countP (Turn.writes 1) = 1 := by decide
  omega

end Process
end MioBroker.Threaded
