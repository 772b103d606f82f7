import MioBroker.Scenario
import MioBroker.Sessions

/-!
# The dirty flag

While the flag is down the state file holds the retained table and the sessions as they are.
An act that touches either table raises the flag, and only a save takes it down.
-/
namespace MioBroker

open Rust

namespace Broker

/-- The file is left alone, and with the flag down so are the tables it stores. -/
structure Marks (b b' : Broker) : Prop where
  file : b'.stateFile = b.stateFile
  tables : b'.dirty = false →
    b.dirty = false ∧ b'.retained = b.retained ∧ b'.sessions = b.sessions

namespace Marks

theorem same {b b' : Broker} (file : b'.stateFile = b.stateFile) (dirty : b'.dirty = b.dirty)
    (retained : b'.retained = b.retained) (sessions : b'.sessions = b.sessions) : Marks b b' :=
  ⟨file, fun down => ⟨dirty ▸ down, retained, sessions⟩⟩

theorem refl (b : Broker) : Marks b b := same rfl rfl rfl rfl

theorem raised {b b' : Broker} (file : b'.stateFile = b.stateFile) (up : b'.dirty = true) :
    Marks b b' := ⟨file, fun down => by simp [up] at down⟩

theorem trans {a b c : Broker} (first : Marks a b) (second : Marks b c) : Marks a c := by
  refine ⟨second.file.trans first.file, fun down => ?_⟩
  obtain ⟨down, retained, sessions⟩ := second.tables down
  obtain ⟨down, retained', sessions'⟩ := first.tables down
  exact ⟨down, retained.trans retained', sessions.trans sessions'⟩

end Marks

variable {b b' : Broker}

theorem storeRetained_marks (b : Broker) (topic : Str) (payload : Bytes) (srcQos : UInt8)
    (retain : Bool) : Marks b (b.storeRetained topic payload srcQos retain) := by
  simp only [storeRetained]
  split
  · split <;> exact .raised rfl rfl
  · exact .refl b

theorem queueOffline_marks (topic : Str) (payload : Bytes) (srcQos : UInt8) (b : Broker)
    (target : Str × UInt8) : Marks b (queueOffline topic payload srcQos b target) := by
  simp only [queueOffline]
  split
  · split
    · exact .raised rfl rfl
    · exact .refl b
  · exact .refl b

theorem storeOffline_marks (b : Broker) (topic : Str) (payload : Bytes) (srcQos : UInt8) :
    Marks b (b.storeOffline topic payload srcQos) := by
  simp only [storeOffline]
  split
  · generalize (b.sessions.iter.filterMap fun e =>
      (firstMatch e.2.subs topic).map fun sub => (e.1, sub.2)) = targets
    induction targets generalizing b with
    | nil => exact .refl b
    | cons target rest ih => exact (queueOffline_marks topic payload srcQos b target).trans (ih _)
  · exact .refl b

theorem publish_marks {topic : Str} {payload : Bytes} {srcQos : UInt8} {retain : Bool} {n : Nat × Nat}
    (indexed : b.Indexed) (done : b.publish topic payload srcQos retain = .ok (b', n)) :
    Marks b b' := by
  have stored := b.storeRetained_marks topic payload srcQos retain
  -- Storing the message keeps the subscription index.
  have indexed' : (b.storeRetained topic payload srcQos retain).Indexed := by
    obtain ⟨table, dirty, same⟩ := b.storeRetained_frame topic payload srcQos retain
    rw [same]
    exact indexed
  simp only [publish] at done
  split at done
  · cases done
    exact stored
  · obtain ⟨d, m, dead, live, -, c, spec, after⟩ :=
      deliverLive_spec (b.storeRetained topic payload srcQos retain) indexed' topic payload srcQos
    rw [live] at done
    cases done
    have served : Marks (b.storeRetained topic payload srcQos retain) d := by
      apply Marks.same <;> rw [after, spec.frame]
    exact stored.trans (served.trans (d.storeOffline_marks topic payload srcQos))

theorem eraseSession_marks (b : Broker) (cid : Str) : Marks b (b.eraseSession cid) := by
  simp only [eraseSession]
  split
  · exact .raised rfl rfl
  · exact .refl b

theorem persistSession_marks {t : Token} (done : b.persistSession t = .ok b') : Marks b b' := by
  rcases persistSession_ok done with ⟨rfl, -⟩ | ⟨c, offline, -, -, -, rfl⟩
  · exact .refl _
  · exact .raised rfl rfl

/-- With the flag down the file holds the tables. -/
def Saved (b : Broker) : Prop :=
  b.dirty = false → b.stateFile.content = some (serializeState b.retained b.sessions)

theorem Saved.marks (saved : b.Saved) (marks : Marks b b') : b'.Saved := by
  intro down
  obtain ⟨down, retained, sessions⟩ := marks.tables down
  rw [marks.file, retained, sessions]
  exact saved down

/-- A save that succeeds writes the tables; one that fails leaves the flag up. -/
theorem Saved.save (saved : b.Saved) : b.save.Saved := by
  simp only [Broker.save]
  split
  · exact saved
  next up =>
    split
    · exact fun _ => rfl
    · exact fun down => absurd down (by simpa using up)

end Broker

/-- Every act but bookkeeping marks what it changes. -/
theorem Act.marks {a : Act} {b b' : Broker} (healthy : b.Healthy) (done : a.run b = .ok b')
    (tables : ∀ after, a ≠ .account after) : Broker.Marks b b' := by
  cases a with
  | change t ch =>
    obtain ⟨c, -, rfl⟩ := Broker.modifyClient_found done
    exact .same rfl rfl rfl rfl
  | deliver t topic payload qos retain =>
    cases done
    obtain ⟨_, _, _, frame⟩ := b.deliverTo_frame t topic payload qos retain
    apply Broker.Marks.same <;> rw [frame]
  | publish topic payload qos retain =>
    obtain ⟨⟨d, n⟩, published, done⟩ := Run.bind_ok.mp done
    cases done
    exact Broker.publish_marks healthy.indexed published
  | addSub filter t qos =>
    cases done
    obtain ⟨_, _, frame⟩ := b.addSub_frame filter t qos
    apply Broker.Marks.same <;> rw [frame]
  | unsubscribe t filters =>
    cases done
    obtain ⟨_, _, frame⟩ := b.unsubscribe_frame t filters
    apply Broker.Marks.same <;> rw [frame]
  | eraseSession cid =>
    cases done
    exact b.eraseSession_marks cid
  | accept h₁ h₂ =>
    cases done
    exact .same rfl rfl rfl rfl
  | logWill t will =>
    cases done
    exact .same rfl rfl rfl rfl
  | persist t => exact Broker.persistSession_marks done
  | drop t =>
    cases done
    obtain ⟨_, _, frame⟩ := b.dropClient_frame t
    apply Broker.Marks.same <;> rw [frame]
  | account after => exact absurd rfl (tables after)

/-- Every announced act keeps flag and file in step. -/
theorem Broker.Saved.act {b s s' : Broker} {op : Op} {a : Act} (saved : s.Saved) (healthy : s.Healthy)
    (ok : op.conforms b s a) (done : a.run s = .ok s') : s'.Saved := by
  by_cases tables : ∃ after, a = .account after
  · obtain ⟨after, rfl⟩ := tables
    cases done
    rcases ok.2 with ⟨dirty, content⟩ | rfl
    · intro down
      exact content.trans (saved (dirty ▸ down))
    · have kept := saved.save
      obtain ⟨_, _, _, same⟩ := s.save_frame
      rw [same] at kept ⊢
      exact kept
  · exact saved.marks (Act.marks healthy done fun after same => tables ⟨after, same⟩)

theorem Broker.Saved.op {op : Op} {b b' : Broker} {out : Outcome} (saved : b.Saved)
    (healthy : b.Healthy) (done : op.run b = .ok (b', out)) : b'.Saved := by
  refine (op.acts healthy done).keeps healthy Broker.Saved ?_ saved
  exact fun s a t healthy saved ok next => saved.act healthy ok next

namespace Loop

/-- The dirty flag never lies. -/
theorem clean_is_saved (s : Loop) (reached : s.Reachable) (clean : s.broker.dirty = false) :
    s.broker.stateFile.content = some (serializeState s.broker.retained s.broker.sessions) := by
  have both : s.broker.Healthy ∧ s.broker.Saved := by
    refine Machine.Reaches.invariant (fun s => s.broker.Healthy ∧ s.broker.Saved) ?_ ?_ reached
    · rintro s ⟨h, now, file, retryAfter, rfl⟩
      -- `load_state` raises the flag
      exact ⟨Broker.healthy_startup h now file, fun down => by cases down⟩
    · rintro s io t ⟨healthy, saved⟩ - done
      obtain ⟨b, out, ran, rfl⟩ := step_ok.mp done
      exact ⟨healthy.op _ ran, saved.op healthy ran⟩
  exact both.2 clean

/-- A persistent client has a message retained and hangs up. -/
theorem clean_is_saved_departed : ∃ s : Loop, s.Reachable ∧ s.broker.dirty = false ∧
    s.broker.retained.size = 1 ∧ s.broker.sessions.size = 1 ∧
    s.broker.stateFile.content = some (serializeState s.broker.retained s.broker.sessions) := by
  obtain ⟨s, done, checked⟩ := exists_after ([Io.listen, .connection] ++ List.replicate 3 Io.quiet ++
      [Io.read (connectBytes 0 97 ++ [0x82, 6, 0, 1, 0, 1, 116, 1, 0x31, 4, 0, 1, 116, 120])] ++
      List.replicate 15 .quiet ++ [.read [], .quiet])
    (fun s => decide (s.broker.dirty = false ∧ s.broker.retained.size = 1 ∧ s.broker.sessions.size = 1))
    (by decide +kernel)
  obtain ⟨clean, retained, sessions⟩ := of_decide_eq_true checked
  exact ⟨s, after_reachable done, clean, retained, sessions, clean_is_saved s (after_reachable done) clean⟩

end Loop
end MioBroker
