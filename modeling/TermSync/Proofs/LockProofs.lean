import Mathlib.Algebra.BigOperators.Group.Finset.Basic
import TermSync.Proofs.SystemProofs

/-!
# Proofs: the list of clients and its lock

A connection registers once (`RegistersOnce`), so the list of clients is not longer than the number of
connections. The thread that holds the lock of the list has only sends before it gives the lock back
(`LockHeld`).
-/

namespace TermSync

open Foundations

/-- The effect registers a client. -/
def Effect.registers : Effect → Bool
  | .register _ => true
  | _ => false

/-- The effect is a send of a broadcast. -/
def Effect.IsSendTo (effect : Effect) : Prop := ∃ fd message, effect = .sendTo fd message

namespace Sys

/-! ## Sums over the connections -/

/-- Replacing one connection changes a sum over all of them by the difference of its own part. -/
theorem sum_setConn (f : ℕ → Conn → ℕ) {s t : Sys} {i : ℕ} {c : Conn} (hi : i < s.accepted)
    (hconns : t.conns = s.conns) :
    (∑ j ∈ Finset.range s.accepted, f j ((t.setConn i c).conns j)) + f i (s.conns i) =
      (∑ j ∈ Finset.range s.accepted, f j (s.conns j)) + f i c := by
  have hsum := sum_range_update f s.conns hi c
  simpa only [setConn, hconns] using hsum

/-! ## Registrations -/

/-- The registrations of connection `j` that have been made or will be made. -/
def registrations (clients : List TsClientConnection) (j : ℕ) (c : Conn) : ℕ :=
  (clients.countP fun client => client.fd = j) + (c.thread.countP Effect.registers) +
    if c.phase = .joining then 1 else 0

/-- Each connection registers at most once. -/
def RegistersOnce (s : Sys) : Prop := ∀ j, registrations s.server.clients j (s.conns j) ≤ 1

theorem registersOnce_init (text : Bytes) (limit : ℕ) (path : Bytes) :
    RegistersOnce (init text limit path) := fun _ => Nat.zero_le 1

/-- The answers to a message register nobody. -/
theorem countP_registers_eq_zero {effects : List Effect} (h : ∀ e ∈ effects, e.registers = false) :
    effects.countP Effect.registers = 0 :=
  List.countP_eq_zero.mpr fun e he => by rw [h e he]; decide

theorem not_registers_resultEffects (clientId : Bytes) (result : TsProcessResult) :
    ∀ e ∈ resultEffects clientId result, e.registers = false := by
  intro e he
  unfold resultEffects at he
  split_ifs at he
  · simp only [List.mem_append, List.mem_cons, List.not_mem_nil, or_false, List.mem_map] at he
    rcases he with ((rfl | rfl) | ⟨m, -, rfl⟩) | ⟨m, -, rfl⟩ <;> rfl
  · obtain ⟨m, -, rfl⟩ := List.mem_map.mp he
    rfl

theorem not_registers_answer {server : TsServer} {client : TsClientConnection} {message : TsMessage}
    {out : TsServer × List Effect} (hne : message.type ≠ typeOp)
    (h : dispatchMessage server client message = some out) : ∀ e ∈ out.2, e.registers = false := by
  rcases (dispatchMessage_of_ne hne h).2 with ⟨-, heq⟩ | ⟨-, heq⟩ | ⟨-, heq⟩ | ⟨-, -, -, heq⟩ <;>
  · rw [heq]
    simp [Effect.registers]

/-- A connection whose thread registers nobody any more, or as often as before. -/
theorem RegistersOnce.set {s t : Sys} {i : ℕ} {c : Conn} (h : RegistersOnce s)
    (hconns : t.conns = s.conns) (hclients : t.server.clients = s.server.clients)
    (hthread : (c.thread.countP Effect.registers) ≤
      (s.conns i).thread.countP Effect.registers)
    (hphase : c.phase = .joining → (s.conns i).phase = .joining) : RegistersOnce (t.setConn i c) := by
  have hclients' : (t.setConn i c).server.clients = s.server.clients := hclients
  intro j
  rw [hclients']
  refine forall_setConn (P := fun j c => registrations s.server.clients j c ≤ 1) ?_
    (fun j _ => by rw [hconns]; exact h j) j
  refine le_trans ?_ (h i)
  unfold registrations
  split_ifs with hc hs
  · omega
  · exact absurd (hphase hc) hs
  · omega
  · omega

theorem RegistersOnce.step {s s' : Sys} {a : Action} (hs : RegistersOnce s) (hw : Wired s)
    (h : s.step a = some s') : RegistersOnce s' := by
  cases stepOutcome h with
  | connect clientId address =>
    refine forall_setConn (P := fun j c => registrations s.server.clients j c ≤ 1) ?_ fun j _ => hs j
    have hnone : s.server.clients.countP (fun client => client.fd = s.accepted) = 0 := by
      refine List.countP_eq_zero.mpr fun client hclient => ?_
      have := hw.clients client hclient
      rw [decide_eq_true_eq]
      omega
    simp [registrations, hnone, Conn.opened]
  | key i op out hi hqueue => exact hs.set rfl rfl le_rfl id
  | save i hi => exact hs.set rfl rfl le_rfl id
  | deliver i message rest out hin hhandle => exact hs.set rfl rfl le_rfl id
  | join i message rest server clientId hthread hin hphase htype hlock hchoose =>
    have hclients := (chooseClientId_server hchoose).1
    intro j
    rw [setConn_server, hclients]
    refine forall_setConn (P := fun j c => registrations s.server.clients j c ≤ 1) ?_
      (fun j _ => hs j) j
    have hone := hs i
    rw [registrations, if_pos hphase] at hone
    rw [registrations, if_neg (by simp)]
    have hcount : (joinEffects { (s.conns i).peer with clientId := clientId }).countP
        Effect.registers = 1 := rfl
    rw [hcount]
    omega
  | refuse i message rest hthread hin hphase htype =>
    refine hs.set rfl rfl ?_ (by simp)
    rw [countP_registers_eq_zero (by simp [Effect.registers])]
    exact Nat.zero_le _
  | op i message rest document result hthread hin hphase htype hprocess =>
    refine hs.set rfl rfl ?_ id
    rw [countP_registers_eq_zero (not_registers_resultEffects _ _)]
    exact Nat.zero_le _
  | answer i message rest effects hthread hin hphase htype hdispatch =>
    refine hs.set rfl rfl ?_ id
    rw [countP_registers_eq_zero (not_registers_answer htype hdispatch)]
    exact Nat.zero_le _
  | register i client rest hthread hlock =>
    have hfd : client.fd = i := hw.threads i (.register client) (by rw [hthread]; exact List.mem_cons_self)
    have hcount (j : ℕ) : (client :: s.server.clients).countP (fun client => client.fd = j) =
        s.server.clients.countP (fun client => client.fd = j) + if i = j then 1 else 0 := by
      rw [List.countP_cons, hfd]
      simp
    refine forall_setConn
      (P := fun j c => registrations (client :: s.server.clients) j c ≤ 1) ?_ fun j hj => ?_
    · refine le_trans (le_of_eq ?_) (hs i)
      have hrest : (Effect.register client :: rest).countP Effect.registers =
          rest.countP Effect.registers + 1 := List.countP_cons_of_pos rfl
      rw [registrations, registrations, hcount, if_pos rfl, hthread, hrest]
      dsimp only
      omega
    · rw [registrations, hcount, if_neg (Ne.symm hj), Nat.add_zero]
      exact hs j
  | snapshot i rest hthread =>
    refine hs.set rfl rfl ?_ id
    rw [hthread, List.countP_cons_of_neg Bool.false_ne_true,
      List.countP_cons_of_neg Bool.false_ne_true]
  | broadcast i message exclude rest hthread hlock =>
    refine hs.set rfl rfl ?_ id
    have hsends : ∀ e ∈ broadcastSends s message exclude, e.registers = false := by
      intro e he
      obtain ⟨client, -, rfl⟩ := List.mem_map.mp he
      rfl
    rw [hthread, List.countP_append, countP_registers_eq_zero hsends, Nat.zero_add,
      List.countP_cons_of_neg Bool.false_ne_true,
      List.countP_cons_of_neg Bool.false_ne_true]
  | send i message rest hthread | pipe i event rest hthread | unlock i rest hthread =>
    refine hs.set rfl rfl ?_ id
    rw [hthread]
    exact le_of_eq (List.countP_cons_of_neg Bool.false_ne_true).symm
  | sendTo i fd message rest hthread =>
    have hmid : RegistersOnce (s.setConn i { s.conns i with thread := rest }) := by
      refine hs.set rfl rfl ?_ id
      rw [hthread, List.countP_cons_of_neg Bool.false_ne_true]
    exact hmid.set rfl rfl le_rfl id
  | saverTake written event rest hpipe => exact hs
  | saverTimer written => exact hs

/-- No connection is on the list of clients twice. -/
theorem RegistersOnce.nodup {s : Sys} (hs : RegistersOnce s) :
    (s.server.clients.map TsClientConnection.fd).Nodup := by
  refine List.nodup_iff_count_le_one.mpr fun j => ?_
  have hone := hs j
  rw [registrations] at hone
  have hcount : (s.server.clients.map TsClientConnection.fd).count j =
      s.server.clients.countP fun client => client.fd = j := by
    rw [List.count, List.countP_map]
    exact List.countP_congr fun client _ => by simp
  omega

/-- There are not more clients than connections. -/
theorem RegistersOnce.length_le {s : Sys} (hs : RegistersOnce s) (hw : Wired s) :
    s.server.clients.length ≤ s.accepted := by
  have hsub : s.server.clients.map TsClientConnection.fd ⊆ List.range s.accepted := by
    intro fd hfd
    obtain ⟨client, hclient, rfl⟩ := List.mem_map.mp hfd
    exact List.mem_range.mpr (hw.clients client hclient)
  have hle := (hs.nodup.subperm hsub).length_le
  rwa [List.length_map, List.length_range] at hle

/-! ## The lock -/

/-- The thread that holds the lock has some sends to do, and then it gives the lock back. -/
def LockHeld (s : Sys) : Prop :=
  ∀ j, s.clientsLock = some j → ∃ sends rest, (s.conns j).thread = sends ++ Effect.unlock :: rest ∧
    ∀ e ∈ sends, e.IsSendTo

theorem lockHeld_init (text : Bytes) (limit : ℕ) (path : Bytes) : LockHeld (init text limit path) :=
  fun _ h => by cases h

/-- Replacing a connection that does not hold the lock, or that keeps what it has to do. -/
theorem LockHeld.set {s t : Sys} {i : ℕ} {c : Conn} (h : LockHeld s) (hconns : t.conns = s.conns)
    (hlock : t.clientsLock = s.clientsLock)
    (hc : s.clientsLock = some i → ∃ sends rest, c.thread = sends ++ Effect.unlock :: rest ∧
      ∀ e ∈ sends, e.IsSendTo) : LockHeld (t.setConn i c) := by
  intro j hj
  rw [setConn_clientsLock, hlock] at hj
  by_cases hji : j = i
  · subst hji
    rw [setConn_conns_self]
    exact hc hj
  · rw [setConn_conns_of_ne t hji, hconns]
    exact h j hj

/-- The holder of the lock has a send or the unlocking to do next. -/
theorem LockHeld.head {s : Sys} {i : ℕ} {effect : Effect} {rest : List Effect} (h : LockHeld s)
    (hlock : s.clientsLock = some i) (hthread : (s.conns i).thread = effect :: rest) :
    effect.IsSendTo ∧ (∃ sends rest', rest = sends ++ Effect.unlock :: rest' ∧
      ∀ e ∈ sends, e.IsSendTo) ∨ effect = .unlock := by
  obtain ⟨sends, rest', heq, hsends⟩ := h i hlock
  rw [hthread] at heq
  cases sends with
  | nil => exact Or.inr (List.cons.inj heq).1
  | cons e sends =>
    obtain ⟨rfl, rfl⟩ := List.cons.inj heq
    exact Or.inl ⟨hsends effect List.mem_cons_self, sends, rest', rfl,
      fun e he => hsends e (List.mem_cons_of_mem _ he)⟩

theorem LockHeld.step {s s' : Sys} {a : Action} (hs : LockHeld s) (hw : Wired s)
    (h : s.step a = some s') : LockHeld s' := by
  -- a thread that has an effect other than a send or the unlocking does not hold the lock
  have hother {i : ℕ} {effect : Effect} {rest : List Effect} {p : Prop}
      (hthread : (s.conns i).thread = effect :: rest) (hsend : ¬ effect.IsSendTo)
      (hunlock : effect ≠ .unlock) (hlock : s.clientsLock = some i) : p := by
    rcases hs.head hlock hthread with ⟨h, -⟩ | h
    · exact absurd h hsend
    · exact absurd h hunlock
  -- nor does one that has nothing to do
  have hidle {i : ℕ} {p : Prop} (hthread : (s.conns i).thread = [])
      (hlock : s.clientsLock = some i) : p := by
    obtain ⟨sends, rest, heq, -⟩ := hs i hlock
    rw [hthread] at heq
    exact absurd heq (by simp)
  cases stepOutcome h with
  | connect clientId address =>
    refine hs.set rfl rfl fun hlock => ?_
    exact hidle (by rw [hw.absent s.accepted le_rfl]; rfl) hlock
  | key i op out hi hqueue => exact hs.set rfl rfl (hs i)
  | save i hi => exact hs.set rfl rfl (hs i)
  | deliver i message rest out hin hhandle => exact hs.set rfl rfl (hs i)
  | join i message rest server clientId hthread => exact hs.set rfl rfl (hidle hthread)
  | refuse i message rest hthread => exact hs.set rfl rfl (hidle hthread)
  | op i message rest document result hthread => exact hs.set rfl rfl (hidle hthread)
  | answer i message rest effects hthread => exact hs.set rfl rfl (hidle hthread)
  | send i message rest hthread =>
    exact hs.set rfl rfl (hother hthread (by simp [Effect.IsSendTo]) (by simp))
  | pipe i event rest hthread =>
    exact hs.set rfl rfl (hother hthread (by simp [Effect.IsSendTo]) (by simp))
  | register i client rest hthread =>
    exact hs.set rfl rfl (hother hthread (by simp [Effect.IsSendTo]) (by simp))
  | snapshot i rest hthread =>
    exact hs.set rfl rfl (hother hthread (by simp [Effect.IsSendTo]) (by simp))
  | broadcast i message exclude rest hthread hlock =>
    intro j hj
    obtain rfl : i = j := Option.some.inj hj
    refine ⟨broadcastSends s message exclude, rest, by rw [setConn_conns_self], ?_⟩
    intro e he
    obtain ⟨client, -, rfl⟩ := List.mem_map.mp he
    exact ⟨client.fd, message, rfl⟩
  | sendTo i fd message rest hthread =>
    have hmid : LockHeld (s.setConn i { s.conns i with thread := rest }) := by
      refine hs.set rfl rfl fun hlock => ?_
      rcases hs.head hlock hthread with ⟨-, h⟩ | h
      · exact h
      · cases h
    exact hmid.set rfl rfl (hmid fd)
  | unlock i rest hthread => exact fun _ hj => by cases hj
  | saverTake written event rest hpipe => exact hs
  | saverTimer written => exact hs

end Sys

end TermSync
