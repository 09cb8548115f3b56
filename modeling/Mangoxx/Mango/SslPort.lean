import Mangoxx.Mango.PortRead
import Mangoxx.Mango.SslRead

namespace Mangoxx.Mango

open Mangoxx.Lib Mangoxx.Lib.CInt

def Reading.answers (datalen : Nat) : (turns : List Nat) → Reading → Nat → Port.ReadResult
  | _, v, 0 => .bytes v.conn.deliver.pending
  | [], _, _ + 1 => .bytes []
  | n :: turns, v, k + 1 =>
    match v.read datalen with
    | .ok v => Reading.answers datalen turns { v with conn := v.conn.arrive n } k
    | .error _ => .bytes []

def Wait.clock (wait : Wait) (k : Nat) : UInt32 := if k ≤ wait.turns.length then 0 else 1

def Wait.inputs (datalen : Nat) (wait : Wait) (c : Conn) : Port.Inputs where
  ready := (c.arrive wait.atSelect).socket.length ≠ 0
  results := Reading.answers datalen wait.turns ⟨0, [], c.arrive wait.atSelect⟩
  clock := wait.clock

section Loop

variable {datalen : Nat} {v : Reading} {u : Port.ReadLoop}

structure Agrees (datalen : Nat) (v : Reading) (u : Port.ReadLoop) : Prop where
  received : u.received = v.received
  delivered : u.delivered = v.data
  fits : v.received ≤ datalen

theorem Agrees.read (h : Agrees datalen v u) (hsize : datalen < 2 ^ 16) :
    ∃ v', v.read datalen = .ok v' ∧
      Agrees datalen v' (u.take datalen v.conn.deliver.pending) ∧
      (u.take datalen v.conn.deliver.pending).calls = u.calls + 1 := by
  obtain ⟨bytes, conn, hssl, hread⟩ := read_ok datalen v
  have hbytes : v.conn.deliver.pending.take (datalen - v.received) = bytes := by
    simp only [sslRead, Prod.mk.injEq] at hssl
    exact hssl.2.1
  have hlength : bytes.length ≤ datalen - v.received := hbytes ▸ List.length_take_le _ _
  have hfits := h.fits
  refine ⟨_, hread, ?_⟩
  rw [Port.ReadLoop.take, h.received, hbytes]
  by_cases hsome : 0 < bytes.length
  · rw [if_pos hsome]
    exact ⟨⟨Nat.mod_eq_of_lt (by omega), congrArg (· ++ bytes) h.delivered, by dsimp only; omega⟩,
      rfl⟩
  · obtain rfl : bytes = [] := List.length_eq_zero_iff.mp (by omega)
    rw [if_neg hsome]
    exact ⟨⟨rfl, h.delivered.trans (List.append_nil _).symm, hfits⟩, rfl⟩

/-- The loops end alike, where the answers and the clock of the one are those of the other from the
call on that comes next. -/
theorem Agrees.loop {inp : Port.Inputs} {timeout : UInt32} (hsize : datalen < 2 ^ 16)
    (turns : List Nat) (h : Agrees datalen v u)
    (hresults : ∀ k ≤ turns.length, inp.results (u.calls + k) = v.answers datalen turns k)
    (hclock : ∀ k, k < turns.length ↔
      elapsedTime (inp.clock (u.calls + (k + 1))) (inp.clock 0) < timeout) :
    ∃ u', Loop.iterate (Port.ReadLoop.turn inp datalen timeout) (turns.length + 1) u = some u' ∧
      Agrees datalen (Reading.loop datalen turns v).2 u' ∧
      (Reading.loop datalen turns v).1 = u'.received := by
  induction turns generalizing v u with
  | nil =>
    obtain ⟨v', hread, hagrees, hcalls⟩ := h.read hsize
    have hresult : inp.results u.calls = .bytes v.conn.deliver.pending := hresults 0 (Nat.le_refl 0)
    have hlate := (hclock 0).not.mp (Nat.lt_irrefl 0)
    refine ⟨u.take datalen v.conn.deliver.pending, ?_, ?_⟩
    · simp only [Loop.iterate, List.length_nil, Port.ReadLoop.turn, hresult, hcalls]
      rw [if_neg fun hmore => hlate hmore.2]
    · rw [Reading.loop, hread]
      exact ⟨hagrees, congrArg Nat.cast hagrees.received.symm⟩
  | cons n turns ih =>
    obtain ⟨v', hread, hagrees, hcalls⟩ := h.read hsize
    have hresult : inp.results u.calls = .bytes v.conn.deliver.pending := hresults 0 (Nat.zero_le _)
    have hearly := (hclock 0).mp (Nat.succ_pos _)
    by_cases hmore : v'.received < datalen
    · have hnext : Agrees datalen { v' with conn := v'.conn.arrive n }
          (u.take datalen v.conn.deliver.pending) :=
        ⟨hagrees.received, hagrees.delivered, hagrees.fits⟩
      obtain ⟨u', hrun, hend⟩ := ih hnext
        (fun k hk => by
          rw [hcalls, Nat.add_assoc, Nat.add_comm 1, hresults (k + 1) (Nat.succ_le_succ hk),
            Reading.answers, hread])
        fun k => by
          rw [hcalls, Nat.add_assoc, Nat.add_comm 1, ← hclock (k + 1)]
          exact Nat.succ_lt_succ_iff.symm
      refine ⟨u', ?_, ?_⟩
      · rw [Loop.iterate, Port.ReadLoop.turn, hresult]
        dsimp only
        rw [if_pos ⟨hagrees.received ▸ hmore, hcalls ▸ hearly⟩]
        exact hrun
      · rw [Reading.loop, hread]
        simp only [if_pos hmore]
        exact hend
    · refine ⟨u.take datalen v.conn.deliver.pending, ?_, ?_⟩
      · rw [Loop.iterate, Port.ReadLoop.turn, hresult]
        dsimp only
        rw [if_neg fun h => hmore (hagrees.received ▸ h.1)]
      · rw [Reading.loop, hread]
        simp only [if_neg hmore]
        exact ⟨hagrees, congrArg Nat.cast hagrees.received.symm⟩

end Loop

theorem answers_bytes (datalen : Nat) (turns : List Nat) (v : Reading) (k : Nat) :
    ∃ bs, Reading.answers datalen turns v k = .bytes bs := by
  induction turns generalizing v k with
  | nil =>
    cases k with
    | zero => exact ⟨_, rfl⟩
    | succ k => exact ⟨_, rfl⟩
  | cons n turns ih =>
    cases k with
    | zero => exact ⟨_, rfl⟩
    | succ k =>
      obtain ⟨bytes, conn, -, hread⟩ := read_ok datalen v
      rw [Reading.answers, hread]
      exact ih _ k

/-- A read from a TLS connection is the read of the port that meets what the connection has, and
loses nothing of it. -/
theorem sslread_is_port_read (datalen : UInt16) (wait : Wait) (c : Conn) (data : Memory UInt8) :
    ∃ r n, (∀ fuel ≥ n, Port.mangoPortSslread fuel (wait.inputs datalen.toNat c) datalen 1 data =
        some r) ∧ r.Lossless datalen ∧
      (mangoPortSslread datalen wait c).1 = r.retval ∧
      (mangoPortSslread datalen wait c).2.1 = r.delivered := by
  have hsize := datalen.toNat_lt
  have hlossless := (Port.readPort_lossless_iff (wait.inputs datalen.toNat c) datalen 1 data).mpr
    fun _ n retval _ hfailed => by
      obtain ⟨bs, hbs⟩ := answers_bytes datalen.toNat wait.turns ⟨0, [], c.arrive wait.atSelect⟩ n
      cases hbs.symm.trans hfailed
  by_cases hsocket : (c.arrive wait.atSelect).socket = []
  · have hready : (wait.inputs datalen.toNat c).ready = false := by simp [Wait.inputs, hsocket]
    have hresult (fuel : Nat) : Port.mangoPortSslread fuel (wait.inputs datalen.toNat c) datalen 1
        data = some ⟨0, data, []⟩ := if_neg (by rw [hready]; decide)
    have hnone : mangoPortSslread datalen wait c = (0, [], c.arrive wait.atSelect) :=
      if_neg (not_not.mpr hsocket)
    rw [hnone]
    exact ⟨_, 0, fun fuel _ => hresult fuel, hlossless 0 _ (hresult 0), rfl, rfl⟩
  · have hready : (wait.inputs datalen.toNat c).ready = true := by simp [Wait.inputs, hsocket]
    have hclock (k : Nat) : k < wait.turns.length ↔
        elapsedTime (wait.clock (0 + (k + 1))) (wait.clock 0) < 1 := by
      rw [Nat.zero_add, show wait.clock 0 = 0 from if_pos (Nat.zero_le _), Wait.clock]
      split
      · exact iff_of_true (by omega) (by decide)
      · exact iff_of_false (by omega) (by decide)
    have hstart : Agrees datalen.toNat ⟨0, [], c.arrive wait.atSelect⟩ ⟨0, data, 0, []⟩ :=
      ⟨rfl, rfl, Nat.zero_le _⟩
    have hanswers (k : Nat) (_ : k ≤ wait.turns.length) :
        (wait.inputs datalen.toNat c).results (0 + k) = Reading.answers datalen.toNat wait.turns
          ⟨0, [], c.arrive wait.atSelect⟩ k := congrArg _ (Nat.zero_add k)
    obtain ⟨u, hrun, hagrees, hretval⟩ := hstart.loop hsize wait.turns hanswers hclock
    have hresult (fuel : Nat) (hfuel : fuel ≥ wait.turns.length + 1) : Port.mangoPortSslread fuel
        (wait.inputs datalen.toNat c) datalen 1 data = some u.outcome := by
      rw [Port.mangoPortSslread, Port.readPort, if_pos hready, Loop.iterate_mono hrun hfuel]
      rfl
    have hcount : u.outcome.retval = u.received := by
      have hfits := hagrees.fits
      rw [← hagrees.received] at hfits
      exact int32_eq ⟨by omega, by omega⟩
    have hsome : mangoPortSslread datalen wait c = ((Reading.loop datalen.toNat wait.turns
        ⟨0, [], c.arrive wait.atSelect⟩).1, (Reading.loop datalen.toNat wait.turns
        ⟨0, [], c.arrive wait.atSelect⟩).2.data, (Reading.loop datalen.toNat wait.turns
        ⟨0, [], c.arrive wait.atSelect⟩).2.conn) := if_pos hsocket
    rw [hsome]
    exact ⟨u.outcome, _, hresult, hlossless _ _ (hresult _ (Nat.le_refl _)),
      hretval.trans hcount.symm, hagrees.delivered.symm⟩

end Mangoxx.Mango
