import MioBroker.Channels

/-!
# Nobody waits for long

`publish` never blocks, so whoever holds the mutex can always go on and gives it back after a number
of its own turns that is known beforehand. A reader thread waits outside of the mutex only, for its
own writer thread.
-/
namespace MioBroker.Threaded

open Rust

/-- The turns a thread needs from here until it gives the mutex back, with so many subscriptions. -/
def Action.cost (subs : Nat) : List Action → Nat
  | [] => 0
  | .unlock :: _ => 1
  | .publish _ _ :: rest => subs + 2 + cost subs rest
  | .retain _ _ todo _ :: rest => todo.length + 1 + cost subs rest
  | _ :: rest => cost subs rest + 1

/-- It is the turn of this reader thread to do something. -/
def Turn.actsFor (t : Token) : Turn → Bool
  | .act u => u == t
  | _ => false

/-- A publish is alone in its critical section. -/
theorem Underway.tail_unpublished {start b : Broker} {t : Token} {job : Job}
    {attempts : List (Subscription × TrySend)} {a : Action} {crit : List Action}
    (underway : Underway start t job attempts (a :: crit) b) (topic : Str) (payload : Bytes) :
    .publish topic payload ∉ crit := by
  generalize given : a :: crit = all at underway
  cases underway with
  | subscribe topics more =>
    cases more with
    | nil => cases given
    | cons e more =>
      cases given
      simp
  | unsubscribe filters more =>
    cases more with
    | nil => cases given
    | cons f more =>
      cases given
      simp
  | done => cases given
  | _ =>
    cases given
    simp

/-- Without a publish the number of subscriptions does not matter. -/
theorem Action.cost_congr {crit : List Action} (more : List Action) (n m : Nat)
    (unpublished : ∀ topic payload, .publish topic payload ∉ crit) :
    cost n (crit ++ .unlock :: more) = cost m (crit ++ .unlock :: more) := by
  induction crit with
  | nil => rfl
  | cons a crit ih =>
    have same := ih fun topic payload member => unpublished topic payload (List.mem_cons_of_mem _ member)
    cases a with
    | publish topic payload => exact absurd List.mem_cons_self (unpublished topic payload)
    | unlock => rfl
    | _ => simp only [List.cons_append, cost, same]

theorem Action.cost_effect {t : Token} {b b' : Broker} {a : Action} (effect : a.effect t b = some b')
    (n : Nat) (rest : List Action) : cost n (a :: rest) = cost n rest + 1 := by
  cases a with
  | retain topic pkt left out =>
    cases left with
    | nil => simp [cost, Nat.add_comm]
    | cons s left => cases effect
  | publish topic payload => cases effect
  | unlock => cases effect
  | _ => rfl

namespace Process

/-- The turn can be taken. -/
def Enabled (p : Process) (turn : Turn) : Prop := ∃ q, p.step turn = .ok q

variable {p q : Process} {start : Broker} {t : Token} {r : Reader} {turn : Turn} {sec : Section}

/-- Only the mutex and a full channel make a thread wait. -/
theorem act_enabled {a : Action} {rest : List Action} (reader : p.readers t = some r)
    (todo : r.todo = a :: rest) (unsent : ∀ pkt, a ≠ .send pkt) (entered : ∀ job, a ≠ .lock job) :
    p.Enabled (.act t) := by
  simp only [Enabled, step, reader, todo]
  cases a with
  | lock job => exact absurd rfl (entered job)
  | send pkt => exact absurd rfl (unsent pkt)
  | retain topic pkt left out =>
    cases left with
    | nil => exact ⟨_, rfl⟩
    | cons s left =>
      simp only [act]
      split <;> exact ⟨_, rfl⟩
  | _ => exact ⟨_, rfl⟩

theorem Coherent.holder_enabled (coherent : p.Coherent start) (locked : p.lock = some sec) :
    p.Enabled (.act sec.token) := by
  obtain ⟨r, reader⟩ := coherent.held sec locked
  cases todo : r.todo with
  | nil =>
    cases coherent.places _ r reader with
    | outside free => exact absurd rfl (free sec locked)
    | inside held token cut => simp [todo] at cut
  | cons a rest =>
    -- It neither sends nor wants the mutex, or it would be outside.
    refine act_enabled reader todo ?_ ?_
    · rintro pkt rfl
      exact (coherent.outside reader todo (.inl ⟨pkt, rfl⟩)).1 sec locked rfl
    · rintro job rfl
      exact (coherent.outside reader todo (.inr ⟨job, rfl⟩)).1 sec locked rfl

/-- A reader thread is done, or it can go on, or it waits for the mutex and the holder can go on, or it
waits for room in its own channel and its writer thread is about to make some. -/
theorem never_stuck (p : Process) (reached : p.Reachable) (t : Token) (r : Reader)
    (reader : p.readers t = some r) :
    (r.todo = [] ∧ (r.stage = .returned ∨ r.stage = .panicked)) ∨
      (r.todo = [] ∧ ∀ bytes, p.Enabled (.read t bytes)) ∨ p.Enabled (.act t) ∨
      (∃ sec, p.lock = some sec ∧ sec.token ≠ t ∧ p.Enabled (.act sec.token)) ∨
      ∃ l, p.lines t = some l ∧ l.tx.queue.length = SUB_QUEUE_CAP ∧
        (p.Enabled (.take t) ∨ ∃ pkt, l.writer = .writing pkt) := by
  obtain ⟨⟨start, coherent⟩, -⟩ := reached.coherent
  obtain ⟨lined, -⟩ := reached.lined
  cases todo : r.todo with
  | nil =>
    cases stage : r.stage with
    | returned => exact .inl ⟨rfl, .inl rfl⟩
    | panicked => exact .inl ⟨rfl, .inr rfl⟩
    | _ =>
      refine .inr (.inl ⟨rfl, fun bytes => ?_⟩)
      simp only [Enabled, step, reader, todo, stage]
      exact ⟨_, rfl⟩
  | cons a rest =>
    refine .inr (.inr ?_)
    by_cases wants : ∃ job, a = .lock job
    · obtain ⟨job, rfl⟩ := wants
      cases locked : p.lock with
      | none =>
        refine .inl ?_
        simp only [Enabled, step, reader, todo, act, locked]
        exact ⟨_, rfl⟩
      | some sec =>
        have apart := (coherent.outside reader todo (.inr ⟨job, rfl⟩)).1 sec locked
        exact .inr (.inl ⟨sec, rfl, apart, coherent.holder_enabled locked⟩)
    by_cases sends : ∃ pkt, a = .send pkt
    · obtain ⟨pkt, rfl⟩ := sends
      obtain ⟨l, line⟩ := lined.paired t r reader
      have sound := lined.sound t l line
      by_cases connected : l.tx.connected = true
      · by_cases room : l.tx.queue.length < SUB_QUEUE_CAP
        · refine .inl ?_
          simp only [Enabled, step, reader, todo, act, line, connected, room]
          exact ⟨_, rfl⟩
        · have full : l.tx.queue.length = SUB_QUEUE_CAP := Nat.le_antisymm sound.bounded (Nat.le_of_not_lt room)
          refine .inr (.inr ⟨l, line, full, ?_⟩)
          cases writer : l.writer with
          | ended => exact absurd writer (sound.connected.mp connected)
          | writing pkt => exact .inr ⟨pkt, rfl⟩
          | waiting =>
            cases queued : l.tx.queue with
            | nil => simp [queued, SUB_QUEUE_CAP] at full
            | cons pkt queue =>
              refine .inl ?_
              simp only [Enabled, step, line, writer, queued]
              exact ⟨_, rfl⟩
      · refine .inl ?_
        simp only [Enabled, step, reader, todo, act, line, connected]
        exact ⟨_, rfl⟩
    · refine .inl (act_enabled reader todo (fun pkt same => sends ⟨pkt, same⟩) fun job same => ?_)
      exact wants ⟨job, same⟩

/-- A PUBLISH while the mutex is held for a SUBSCRIBE. -/
theorem never_stuck_publish : ∃ (p : Process) (r : Reader), p.Reachable ∧ p.readers 2 = some r ∧ p.lock.isSome ∧
    (p.Enabled (.act 2) ∨ ∃ sec, p.lock = some sec ∧ sec.token ≠ 2 ∧ p.Enabled (.act sec.token)) := by
  obtain ⟨p, reached, checked⟩ := exists_reachable (subscribed.take 4 ++ [.read 2 [0x30, 4, 0, 1, 97, 120]])
    (fun p => p.lock.isSome && ((p.readers 2).any fun r => !r.todo.isEmpty) &&
      (p.lines 2).any fun l => l.tx.queue.isEmpty) (by decide +kernel)
  obtain ⟨both, channel⟩ := (Bool.and_eq_true _ _).mp checked
  obtain ⟨locked, asks⟩ := (Bool.and_eq_true _ _).mp both
  obtain ⟨r, reader, busy⟩ := (Option.any_eq_true _ _).mp asks
  obtain ⟨l, line, empty⟩ := (Option.any_eq_true _ _).mp channel
  have wanted : r.todo ≠ [] := by simpa using busy
  refine ⟨p, r, reached, reader, locked, ?_⟩
  rcases never_stuck p reached 2 r reader with ⟨idle, -⟩ | ⟨idle, -⟩ | enabled | waits | ⟨l', line', full, -⟩
  · exact absurd idle wanted
  · exact absurd idle wanted
  · exact .inl enabled
  · exact .inr waits
  · cases line.symm.trans line'
    simp [show l.tx.queue = [] by simpa using empty, SUB_QUEUE_CAP] at full

/-- A turn leaves the mutex free, or with who holds it, who is then nearer to giving it back if it was
its turn. -/
theorem Coherent.holder_step (coherent : p.Coherent start) (answered : p.Answered)
    (locked : p.lock = some sec) (reader : p.readers sec.token = some r) (moves : p.Moves turn q) :
    q.lock = none ∨ ∃ sec' r', q.lock = some sec' ∧ sec'.token = sec.token ∧
      q.readers sec.token = some r' ∧
      Action.cost q.broker.subs.length r'.todo + (turn.actsFor sec.token).toNat ≤
        Action.cost p.broker.subs.length r.todo := by
  have busy : r.todo ≠ [] := by
    intro idle
    cases coherent.places _ r reader with
    | outside free => exact free sec locked rfl
    | inside held token cut => simp [idle] at cut
  cases moves with
  | accepted =>
    have other : sec.token ≠ p.nextToken := by
      intro same
      rw [same, (answered.given _ le_rfl).1] at reader
      cases reader
    exact .inr ⟨sec, r, locked, rfl, (setReader_other _ _ _ _ other).trans reader, le_rfl⟩
  | @receive t s bytes reading idle stage =>
    have other : sec.token ≠ t := by
      rintro rfl
      cases reader.symm.trans reading
      exact busy idle
    exact .inr ⟨sec, r, locked, rfl, (setReader_other _ _ _ _ other).trans reader, le_rfl⟩
  | @returns t s bytes reading idle stage =>
    have other : sec.token ≠ t := by
      rintro rfl
      cases reader.symm.trans reading
      exact busy idle
    exact .inr ⟨sec, r, locked, rfl, (setReader_other _ _ _ _ other).trans reader, le_rfl⟩
  | @act t s a rest q acting todo acts =>
    by_cases mine : sec.token = t
    · subst mine
      cases reader.symm.trans acting
      have turns : (Turn.act sec.token).actsFor sec.token = true := by simp [Turn.actsFor]
      rw [turns, todo]
      have holder := coherent.holder reader locked rfl todo
      cases acts with
      | lock free => cases free.symm.trans locked
      | @change a b effect =>
        rcases holder with ⟨rfl, -⟩ | ⟨crit, more, rfl, -, underway⟩
        · cases effect
        refine .inr ⟨sec, _, locked, rfl, setReader_self _ _ _, ?_⟩
        rw [Action.cost_effect effect, Action.cost_congr more p.broker.subs.length b.subs.length
          underway.tail_unpublished]
        exact le_rfl
      | publish =>
        refine .inr ⟨sec, _, locked, rfl, setReader_self _ _ _, ?_⟩
        simp only [setReader, Action.cost, Bool.toNat_true]
        omega
      | @attempt topic pkt u left out q result wanted tried =>
        rw [trySend_frame tried]
        refine .inr ⟨{ sec with attempts := sec.attempts ++ [(u, result)] }, _, ?_, rfl,
          setReader_self _ _ _, ?_⟩
        · simp [setReader, note, locked]
        · simp only [setReader, note, Action.cost, List.length_cons, Bool.toNat_true]
          omega
      | skip =>
        refine .inr ⟨sec, _, locked, rfl, setReader_self _ _ _, ?_⟩
        simp only [setReader, Action.cost, List.length_cons, Bool.toNat_true]
        omega
      | unlock => exact .inl rfl
      | @ignored pkt =>
        exact absurd rfl ((coherent.outside reader todo (.inl ⟨pkt, rfl⟩)).1 sec locked)
      | @send pkt =>
        exact absurd rfl ((coherent.outside reader todo (.inl ⟨pkt, rfl⟩)).1 sec locked)
    · have turns : (Turn.act t).actsFor sec.token = false := by
        simpa [Turn.actsFor] using Ne.symm mine
      rw [turns]
      -- The others can only send, or wait.
      have outside : ∀ {b}, p.lock = some b → b.token ≠ t := by
        intro b held
        cases held.symm.trans locked
        exact mine
      have inside : (∀ pkt, a ≠ .send pkt) → (∀ job, a ≠ .lock job) → False := fun unsent entered =>
        (coherent.inside acting todo unsent entered).elim fun b held => outside held.1 held.2
      cases acts with
      | lock free => cases free.symm.trans locked
      | @change a b effect =>
        exact (inside (by rintro pkt rfl; cases effect) (by rintro job rfl; cases effect)).elim
      | ignored => exact .inr ⟨sec, r, locked, rfl, (setReader_other _ _ _ _ mine).trans reader, le_rfl⟩
      | send => exact .inr ⟨sec, r, locked, rfl, (setReader_other _ _ _ _ mine).trans reader, le_rfl⟩
      | _ => exact (inside (by simp) (by simp)).elim
  | _ => exact .inr ⟨sec, r, locked, rfl, reader, le_rfl⟩

/-- Whoever holds the mutex can always go on, whatever the other threads do, and gives it back by the
last of the turns that are its cost. -/
theorem mutex_released (p : Process) (reached : p.Reachable) (sec : Section) (r : Reader)
    (locked : p.lock = some sec) (reader : p.readers sec.token = some r) :
    p.Enabled (.act sec.token) ∧ ∀ turns q, Machine.Path step (fun _ _ => True) p turns q →
      Action.cost p.broker.subs.length r.todo ≤ turns.countP (Turn.actsFor sec.token) →
      ∃ before after s, turns = before ++ after ∧ Machine.Path step (fun _ _ => True) p before s ∧
        s.lock = none := by
  obtain ⟨⟨start, coherent⟩, -⟩ := reached.coherent
  refine ⟨coherent.holder_enabled locked, fun turns q path enough => ?_⟩
  have run : (∃ before after s, turns = before ++ after ∧
      Machine.Path step (fun _ _ => True) p before s ∧ s.lock = none) ∨
      ∃ sec' r', q.lock = some sec' ∧ sec'.token = sec.token ∧ q.readers sec.token = some r' ∧
        Action.cost q.broker.subs.length r'.todo + turns.countP (Turn.actsFor sec.token) ≤
          Action.cost p.broker.subs.length r.todo := by
    clear enough
    induction path with
    | nil => exact .inr ⟨sec, r, locked, rfl, reader, le_rfl⟩
    | @snoc turns q s turn path _ done ih =>
      rcases ih with ⟨before, after, released, rfl, earlier, free⟩ | ⟨sec', r', locked', token, reader', cost⟩
      · exact .inl ⟨before, after ++ [turn], released, by simp, earlier, free⟩
      have later : q.Reachable := Machine.Reaches.path reached path
      obtain ⟨⟨start, coherent⟩, answered⟩ := later.coherent
      rw [← token] at reader'
      rcases coherent.holder_step answered locked' reader' (step_moves done) with
        free | ⟨sec'', r'', locked'', token', reader'', less⟩
      · exact .inl ⟨turns ++ [turn], [], s, by simp, .snoc turn path trivial done, free⟩
      · rw [token] at less reader''
        refine .inr ⟨sec'', r'', locked'', token'.trans token, reader'', ?_⟩
        rw [List.countP_append, List.countP_singleton]
        cases turns : Turn.actsFor sec.token turn with
        | true =>
          simp only [turns, Bool.toNat_true] at less
          simp only [if_true]
          omega
        | false =>
          simp only [turns, Bool.toNat_false] at less
          simp only [Bool.false_eq_true, if_false]
          omega
  rcases run with released | ⟨sec', r', locked', token, reader', cost⟩
  · exact released
  · -- Who holds the mutex has something left to do.
    have later : q.Reachable := Machine.Reaches.path reached path
    obtain ⟨⟨start, coherent⟩, -⟩ := later.coherent
    have positive : 0 < Action.cost q.broker.subs.length r'.todo := by
      cases coherent.places _ r' reader' with
      | outside free => exact absurd token (free sec' locked')
      | @inside _ crit more held token' cut =>
        rw [cut]
        cases crit with
        | nil => exact Nat.one_pos
        | cons a crit =>
          cases a <;> simp only [List.cons_append, Action.cost]
          all_goals omega
    omega

/-- A SUBSCRIBE whose thread has the mutex. -/
theorem mutex_released_subscribe : ∃ (p : Process) (sec : Section) (turns : List Turn) (s : Process),
    p.Reachable ∧ p.lock = some sec ∧ p.Enabled (.act sec.token) ∧
      Machine.Path step (fun _ _ => True) p turns s ∧ s.lock = none := by
  obtain ⟨p, reached, checked⟩ := exists_reachable (subscribed.take 4)
    (fun p => (p.lock.any fun sec => sec.token == 1) &&
      ((p.readers 1).any fun r => Action.cost p.broker.subs.length r.todo == 2) &&
      (Machine.runChecked step (fun _ _ => true) p [.act 1, .act 1]).any fun _ => true) (by decide +kernel)
  obtain ⟨both, ran⟩ := (Bool.and_eq_true _ _).mp checked
  obtain ⟨holder, asked⟩ := (Bool.and_eq_true _ _).mp both
  obtain ⟨sec, locked, first⟩ := (Option.any_eq_true _ _).mp holder
  obtain ⟨r, reader, cost⟩ := (Option.any_eq_true _ _).mp asked
  obtain ⟨q, path, -⟩ := exists_path p _ _ ran
  have one : sec.token = 1 := by simpa using first
  obtain ⟨enabled, bound⟩ := mutex_released p reached sec r locked (by rw [one, reader])
  obtain ⟨before, after, s, -, earlier, free⟩ := bound _ q path (by
    rw [one, show Action.cost p.broker.subs.length r.todo = 2 by simpa using cost]
    decide)
  exact ⟨p, sec, before, s, reached, locked, enabled, earlier, free⟩

end Process
end MioBroker.Threaded
