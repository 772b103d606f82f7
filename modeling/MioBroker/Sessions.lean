import MioBroker.Queued
import MioBroker.Survivors

/-!
# Stored sessions

Where the entries of the session table come from: `publish` appends to them, `remove_client`
writes them, CONNECT takes them away.
-/
namespace MioBroker

open Rust

/-- The clients `remove_client` keeps a session for. -/
def Client.Persistent (c : Client) : Prop := c.cleanSession = false ∧ c.clientId.isEmpty = false

instance (c : Client) : Decidable c.Persistent := inferInstanceAs (Decidable (_ ∧ _))

/-- The reliable packets `remove_client` reads back. -/
def Client.reliablePackets (c : Client) : List (Bool × Bytes) := c.writeQueue.filter Prod.fst

namespace Broker

/-- What fits in what is left of an offline queue. -/
theorem foldl_addCapped (msgs old : List (Str × Bytes × UInt8)) :
    msgs.foldl addCapped old = old ++ msgs.take (OFFLINE_CAP - old.length) := by
  induction msgs generalizing old with
  | nil => simp
  | cons m msgs ih =>
    rw [List.foldl_cons, ih, addCapped]
    split
    next room =>
      obtain ⟨k, left⟩ := Nat.exists_eq_add_of_lt room
      have here : OFFLINE_CAP - old.length = k + 1 := by omega
      have then_ : OFFLINE_CAP - (old ++ [m]).length = k := by
        rw [List.length_append, List.length_singleton]
        omega
      rw [here, then_, List.append_assoc]
      rfl
    next full =>
      have here : OFFLINE_CAP - old.length = 0 := by omega
      rw [here, List.take_zero, List.take_zero]

/-- The session entry `remove_client` writes, the queue being read back as `offline`. -/
def departure (b : Broker) (t : Token) (c : Client) (offline : List (Str × Bytes × UInt8)) :
    SessionState :=
  let entry := (b.sessions.get? c.clientId).getD ⟨[], []⟩
  ⟨(b.subsOf t).foldl addMissing entry.subs, offline.foldl addCapped entry.offline⟩

variable {b b' : Broker} {t : Token}

theorem persistSession_persistent {c : Client} (found : b.clients.get? t = some c)
    (persistent : c.Persistent) :
    b.persistSession t = (c.reliablePackets.mapM fun e => decodeQueued e.2).map fun offline =>
      { b with sessions := b.sessions.insert c.clientId (b.departure t c offline), dirty := true } := by
  simp only [persistSession, found, persistent.1, persistent.2, Bool.not_false, Bool.and_self, if_true]
  change (c.reliablePackets.mapM fun e => decodeQueued e.2) >>= _ = _
  cases c.reliablePackets.mapM fun e => decodeQueued e.2 <;> rfl

theorem persistSession_other (other : ∀ c, b.clients.get? t = some c → ¬c.Persistent) :
    b.persistSession t = .ok b := by
  simp only [persistSession]
  split
  next c found =>
    have unkept := other c found
    simp only [Client.Persistent] at unkept
    split
    next kept =>
      simp only [Bool.and_eq_true, Bool.not_eq_true'] at kept
      exact absurd kept unkept
    next => rfl
  next => rfl

/-- The two ways `remove_client` leaves the session table. -/
theorem persistSession_ok (done : b.persistSession t = .ok b') :
    (b' = b ∧ ∀ c, b.clients.get? t = some c → ¬c.Persistent) ∨
      ∃ c offline, b.clients.get? t = some c ∧ c.Persistent ∧
        (c.reliablePackets.mapM fun e => decodeQueued e.2) = .ok offline ∧
        b' = { b with
          sessions := b.sessions.insert c.clientId (b.departure t c offline), dirty := true } := by
  by_cases kept : ∃ c, b.clients.get? t = some c ∧ c.Persistent
  · obtain ⟨c, found, persistent⟩ := kept
    rw [persistSession_persistent found persistent] at done
    cases decoded : c.reliablePackets.mapM fun e => decodeQueued e.2 with
    | error e =>
      rw [decoded] at done
      cases done
    | ok offline =>
      rw [decoded] at done
      cases done
      exact .inr ⟨c, offline, found, persistent, decoded, rfl⟩
  · have other : ∀ c, b.clients.get? t = some c → ¬c.Persistent :=
      fun c found persistent => kept ⟨c, found, persistent⟩
    rw [persistSession_other other] at done
    cases done
    exact .inl ⟨rfl, other⟩

end Broker

/-- What an act can do to the sessions. -/
theorem Act.sessions_cases {a : Act} {b b' : Broker} (healthy : b.Healthy) (done : a.run b = .ok b') :
    (b'.sessions = b.sessions ∧ ∀ topic payload qos retain, a ≠ .publish topic payload qos retain) ∨
      (∃ topic payload qos retain, a = .publish topic payload qos retain ∧
        b.Published b' topic payload qos retain) ∨
      (∃ cid, a = .eraseSession cid ∧
        ∀ k, b'.sessions.get? k = if k = cid then none else b.sessions.get? k) ∨
      ∃ t c offline, a = .persist t ∧ b.clients.get? t = some c ∧ c.Persistent ∧
        (c.reliablePackets.mapM fun e => Broker.decodeQueued e.2) = .ok offline ∧
        b'.sessions = b.sessions.insert c.clientId (b.departure t c offline) := by
  cases a with
  | change t ch =>
    obtain ⟨c, -, rfl⟩ := Broker.modifyClient_found done
    exact .inl ⟨rfl, by simp⟩
  | deliver t topic payload qos retain =>
    cases done
    obtain ⟨_, _, _, frame⟩ := b.deliverTo_frame t topic payload qos retain
    exact .inl ⟨by rw [frame], by simp⟩
  | publish topic payload qos retain =>
    exact .inr (.inl ⟨_, _, _, _, rfl, Act.publish_ok healthy.indexed done⟩)
  | addSub filter t qos =>
    cases done
    obtain ⟨_, _, frame⟩ := b.addSub_frame filter t qos
    exact .inl ⟨by rw [frame], by simp⟩
  | unsubscribe t filters =>
    cases done
    obtain ⟨_, _, frame⟩ := b.unsubscribe_frame t filters
    exact .inl ⟨by rw [frame], by simp⟩
  | eraseSession cid =>
    cases done
    exact .inr (.inr (.inl ⟨cid, rfl, b.eraseSession_get? cid⟩))
  | persist t =>
    rcases Broker.persistSession_ok done with ⟨rfl, -⟩ | ⟨c, offline, found, persistent, decoded, rfl⟩
    · exact .inl ⟨rfl, by simp⟩
    · exact .inr (.inr (.inr ⟨t, c, offline, rfl, found, persistent, decoded, rfl⟩))
  | drop t =>
    cases done
    obtain ⟨_, _, frame⟩ := b.dropClient_frame t
    exact .inl ⟨by rw [frame], by simp⟩
  -- the others do not come near the table
  | accept h₁ h₂ =>
    cases done
    exact .inl ⟨rfl, by simp⟩
  | logWill t will =>
    cases done
    exact .inl ⟨rfl, by simp⟩
  | account after =>
    cases done
    exact .inl ⟨rfl, by simp⟩

/-- Where a stored session comes from. -/
theorem Act.session_origin {a : Act} {b b' : Broker} (healthy : b.Healthy) (done : a.run b = .ok b')
    {cid : Str} {sess : SessionState} (stored : b'.sessions.get? cid = some sess) :
    b.sessions.get? cid = some sess ∨
      (∃ topic payload qos retain before, a = .publish topic payload qos retain ∧
        b.sessions.get? cid = some before ∧ sess = before.enqueue topic payload qos) ∨
      ∃ t c offline, a = .persist t ∧ b.clients.get? t = some c ∧ c.Persistent ∧ c.clientId = cid ∧
        (c.reliablePackets.mapM fun e => Broker.decodeQueued e.2) = .ok offline ∧
        sess = b.departure t c offline := by
  rcases Act.sessions_cases healthy done with ⟨same, -⟩ | ⟨topic, payload, qos, retain, rfl, spec⟩ |
    ⟨erased, rfl, left⟩ | ⟨t, c, offline, rfl, found, persistent, decoded, sessions⟩
  · exact .inl (same ▸ stored)
  · rw [spec.sessions cid] at stored
    split at stored
    · obtain ⟨before, there, rfl⟩ := Option.map_eq_some_iff.mp stored
      exact .inr (.inl ⟨_, _, _, _, before, rfl, there, rfl⟩)
    · exact .inl stored
  · rw [left] at stored
    split at stored
    · cases stored
    · exact .inl stored
  · rw [sessions, HashMap.get?_insert] at stored
    split at stored
    next same =>
      cases stored
      exact .inr (.inr ⟨t, c, offline, rfl, found, persistent, same.symm, decoded, rfl⟩)
    next => exact .inl stored

end MioBroker
