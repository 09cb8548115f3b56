import Mangoxx.Lib.History
import Mathlib.Algebra.Group.Nat.Defs

/-! `mangoPort_sslread` of `mangoPort.c`: a wait on the socket in front of reads from the TLS
connection, which holds decrypted bytes of its own. -/

namespace Mangoxx.Mango

open Mangoxx.Lib

structure Record where
  bytes : List UInt8
  nonempty : bytes ≠ []
  bounded : bytes.length ≤ 2 ^ 14

/-- One end of the connection: the bytes that are decrypted and pending in `hc->ssl`, the records
that are undelivered in the socket, and those that the peer has yet to send. -/
structure Conn where
  pending : List UInt8
  socket : List Record
  coming : List Record

def Conn.arrive (n : Nat) (c : Conn) : Conn :=
  { c with socket := c.socket ++ c.coming.take n, coming := c.coming.drop n }

/-- Pending bytes come first; without any, one record is decrypted. -/
def Conn.deliver (c : Conn) : Conn :=
  if c.pending ≠ [] then c
  else
    match c.socket with
    | r :: rs => { c with pending := r.bytes, socket := rs }
    | [] =>
      -- The socket is a blocking one: the call waits for the next record or for the end.
      match c.coming with
      | r :: rs => { c with pending := r.bytes, coming := rs }
      | [] => c

/-- `SSL_read(ssl, buf, num)`: the result is 0 at the end of the connection. -/
def sslRead (num : Nat) (c : Conn) : Int × List UInt8 × Conn :=
  let c := c.deliver
  let bytes := c.pending.take num
  (bytes.length, bytes, { c with pending := c.pending.drop num })

structure Reading where
  received : Nat
  data : List UInt8
  conn : Conn

def Reading.read (datalen : Nat) (v : Reading) : Except (Int × Reading) Reading :=
  let (retval, bytes, conn) := sslRead (datalen - v.received) v.conn
  if retval > 0 then .ok ⟨v.received + retval.toNat, v.data ++ bytes, conn⟩
  else if retval < 0 then .error (retval, { v with conn := conn })
  else .ok { v with conn := conn }

/-- The `do`-`while` loop.  It goes on as long as the clock allows; a turn that it allows is given
by the number of records that have reached the socket by then. -/
def Reading.loop (datalen : Nat) : (turns : List Nat) → Reading → Int × Reading
  | [], v =>
    match v.read datalen with
    | .error e => e
    | .ok v => (v.received, v)
  | n :: turns, v =>
    match v.read datalen with
    | .error e => e
    | .ok v =>
      if v.received < datalen then
        Reading.loop datalen turns { v with conn := v.conn.arrive n }
      else (v.received, v)

/-- What the call meets: the number of records that reach the socket before `select` times out, and
the turns of the loop that come before the timeout. -/
structure Wait where
  atSelect : Nat
  turns : List Nat

def mangoPortSslread (datalen : UInt16) (wait : Wait) (c : Conn) : Int × List UInt8 × Conn :=
  let c := c.arrive wait.atSelect
  -- `select` reports only what is undelivered in the socket.
  if c.socket ≠ [] then
    let (result, v) := Reading.loop datalen.toNat wait.turns ⟨0, [], c⟩
    (result, v.data, v.conn)
  else (0, [], c)

section Bytes

def Conn.bytes (c : Conn) : List UInt8 :=
  c.pending ++ c.socket.flatMap Record.bytes ++ c.coming.flatMap Record.bytes

@[simp] theorem arrive_bytes (n : Nat) (c : Conn) : (c.arrive n).bytes = c.bytes := by
  simp only [Conn.bytes, Conn.arrive, List.flatMap_append, List.append_assoc]
  rw [← List.flatMap_append, List.take_append_drop]

@[simp] theorem arrive_pending (n : Nat) (c : Conn) : (c.arrive n).pending = c.pending := rfl

theorem deliver_of_pending {c : Conn} (h : c.pending ≠ []) : c.deliver = c := if_pos h

theorem deliver_bytes (c : Conn) : c.deliver.bytes = c.bytes := by
  unfold Conn.deliver
  split
  · rfl
  · rename_i hpending
    rw [not_not] at hpending
    split
    · rename_i hsocket
      simp [Conn.bytes, hpending, hsocket]
    · rename_i hsocket
      split
      · rename_i hcoming
        simp [Conn.bytes, hpending, hsocket, hcoming]
      · rfl

theorem sslRead_bytes (num : Nat) (c : Conn) :
    (sslRead num c).2.1 ++ (sslRead num c).2.2.bytes = c.bytes := by
  rw [← deliver_bytes c]
  simp only [sslRead, Conn.bytes]
  rw [← List.append_assoc, ← List.append_assoc, List.take_append_drop]

end Bytes

section Reading

theorem read_ok (datalen : Nat) (v : Reading) :
    ∃ bytes conn, sslRead (datalen - v.received) v.conn = (bytes.length, bytes, conn) ∧
      v.read datalen = .ok ⟨v.received + bytes.length, v.data ++ bytes, conn⟩ := by
  refine ⟨_, _, rfl, ?_⟩
  obtain ⟨bytes, hbytes⟩ : ∃ bytes, bytes = v.conn.deliver.pending.take (datalen - v.received) :=
    ⟨_, rfl⟩
  simp only [Reading.read, sslRead, ← hbytes]
  cases bytes with
  | nil => simp
  | cons b bytes => simp

inductive Reads (datalen : Nat) : Reading → Reading → Prop
  | read {v v' : Reading} (h : v.read datalen = .ok v') : Reads datalen v v'
  | arrive (n : Nat) (v : Reading) : Reads datalen v { v with conn := v.conn.arrive n }

theorem loop_reads (datalen : Nat) (turns : List Nat) (v : Reading) :
    ∃ v' v'', v.read datalen = .ok v' ∧
      Relation.ReflTransGen (Reads datalen) v' v'' ∧
    Reading.loop datalen turns v = ((v''.received : Int), v'') := by
  induction turns generalizing v with
  | nil =>
    obtain ⟨bytes, conn, -, hread⟩ := read_ok datalen v
    exact ⟨_, _, hread, .refl, by rw [Reading.loop, hread]⟩
  | cons n turns ih =>
    obtain ⟨bytes, conn, -, hread⟩ := read_ok datalen v
    by_cases hmore : v.received + bytes.length < datalen
    · obtain ⟨v', v'', hread', hsteps, hloop⟩ := ih
        ⟨v.received + bytes.length, v.data ++ bytes, conn.arrive n⟩
      refine ⟨_, v'', hread, ?_, ?_⟩
      · exact .head (.arrive n _) (.head (.read hread') hsteps)
      · rw [Reading.loop, hread]
        simp only [if_pos hmore, hloop]
    · refine ⟨_, _, hread, .refl, ?_⟩
      rw [Reading.loop, hread]
      simp only [if_neg hmore]

variable {datalen : Nat} {v v' : Reading}

theorem Reads.received_le (h : Reads datalen v v') : v.received ≤ v'.received := by
  cases h with
  | read h =>
    obtain ⟨bytes, conn, -, hread⟩ := read_ok datalen v
    rw [h, Except.ok.injEq] at hread
    rw [hread]
    exact Nat.le_add_right _ _
  | arrive n v => exact Nat.le_refl _

theorem Reads.bytes (h : Reads datalen v v') :
    v'.data ++ v'.conn.bytes = v.data ++ v.conn.bytes := by
  cases h with
  | read h =>
    obtain ⟨bytes, conn, hssl, hread⟩ := read_ok datalen v
    rw [h, Except.ok.injEq] at hread
    have hbytes := sslRead_bytes (datalen - v.received) v.conn
    rw [hssl] at hbytes
    rw [hread, ← hbytes, List.append_assoc]
  | arrive n v => rw [arrive_bytes]

end Reading

section Calls

variable {datalen : UInt16} {wait : Wait} {c : Conn}

theorem loop_positive {turns : List Nat} (hlen : 0 < datalen.toNat) (h : c.pending ≠ []) :
    0 < (Reading.loop datalen.toNat turns ⟨0, [], c⟩).1 := by
  obtain ⟨v', v'', hread, hsteps, hloop⟩ := loop_reads datalen.toNat turns ⟨0, [], c⟩
  obtain ⟨bytes, conn, hssl, hread'⟩ := read_ok datalen.toNat ⟨0, [], c⟩
  rw [hread, Except.ok.injEq] at hread'
  have hfirst : 0 < v'.received := by
    simp only [sslRead, deliver_of_pending h, Prod.mk.injEq] at hssl
    rw [hread', ← hssl.2.1]
    have hlength := List.length_pos_iff.mpr h
    simp only [List.length_take]
    omega
  have hmono : v'.received ≤ v''.received :=
    History.reaches_invariant (I := fun v => v'.received ≤ v.received)
      (fun _ _ hstep hle => Nat.le_trans hle hstep.received_le) hsteps (Nat.le_refl _)
  rw [hloop]
  dsimp only
  omega

/-- With bytes pending, the call returns some exactly if something is undelivered in the socket
when it is made or comes in time. -/
theorem sslread_positive_iff (hlen : 0 < datalen) (h : c.pending ≠ []) :
    0 < (mangoPortSslread datalen wait c).1 ↔ (c.arrive wait.atSelect).socket ≠ [] := by
  unfold mangoPortSslread
  constructor
  · intro hpos hempty
    rw [if_neg (not_not.mpr hempty)] at hpos
    exact absurd hpos (Int.lt_irrefl 0)
  · intro hsocket
    rw [if_pos hsocket]
    exact loop_positive (UInt16.lt_iff_toNat_lt.mp hlen) h

theorem sslread_bytes (datalen : UInt16) (wait : Wait) (c : Conn) :
    (mangoPortSslread datalen wait c).2.1 ++ (mangoPortSslread datalen wait c).2.2.bytes =
      c.bytes := by
  simp only [mangoPortSslread]
  split
  · obtain ⟨v', v'', hread, hsteps, hloop⟩ :=
      loop_reads datalen.toNat wait.turns ⟨0, [], c.arrive wait.atSelect⟩
    rw [hloop]
    have hbytes := History.reaches_invariant
      (I := fun v => v.data ++ v.conn.bytes = v'.data ++ v'.conn.bytes)
      (fun _ _ hstep heq => hstep.bytes.trans heq) hsteps rfl
    rw [hbytes, (Reads.read hread).bytes]
    exact arrive_bytes _ c
  · exact arrive_bytes _ c

end Calls

section Runs

inductive Use
  | arrive (n : Nat)
  | sslread (datalen : UInt16) (wait : Wait)

def Use.step (s : List UInt8 × Conn) : Use → List UInt8 × Conn
  | .arrive n => (s.1, s.2.arrive n)
  | .sslread datalen wait =>
    let (_, data, c) := mangoPortSslread datalen wait s.2
    (s.1 ++ data, c)

def Use.Admitted (_ : List UInt8 × Conn) : Use → Prop
  | .arrive _ => True
  | .sslread datalen _ => 0 < datalen

def Use.Serves (s : List UInt8 × Conn) : Use → Prop
  | .arrive _ => True
  | .sslread datalen wait => s.2.pending ≠ [] → 0 < (mangoPortSslread datalen wait s.2).1

def Use.Readable (s : List UInt8 × Conn) : Use → Prop
  | .arrive _ => True
  | .sslread _ wait => s.2.pending ≠ [] → (s.2.arrive wait.atSelect).socket ≠ []

def connected (records : List Record) : List UInt8 × Conn := ([], ⟨[], [], records⟩)

theorem read_in_order (records : List Record) (uses : List Use) :
    (History.run Use.step (connected records) uses).1 ++
      (History.run Use.step (connected records) uses).2.bytes = records.flatMap Record.bytes := by
  have hstep : ∀ s u, (Use.step s u).1 ++ (Use.step s u).2.bytes = s.1 ++ s.2.bytes := by
    intro s u
    cases u with
    | arrive n => exact congrArg (s.1 ++ ·) (arrive_bytes n s.2)
    | sslread datalen wait =>
      exact (List.append_assoc _ _ _).trans (congrArg (s.1 ++ ·) (sslread_bytes datalen wait s.2))
  have hrun := History.run_rel Use.step
    (R := fun s s' => s'.1 ++ s'.2.bytes = s.1 ++ s.2.bytes) (fun _ => rfl)
    (fun h h' => h'.trans h) hstep (connected records) uses
  exact hrun

/-- Decrypted bytes are stranded by the calls that find nothing undelivered in the socket.  None is
lost: what has been read is the beginning of what the peer sends. -/
theorem never_stranded_iff (records : List Record) (uses : List Use)
    (hlen : History.Each Use.step Use.Admitted (connected records) uses) :
    (History.Each Use.step Use.Serves (connected records) uses ↔
      History.Each Use.step Use.Readable (connected records) uses) ∧
    (History.run Use.step (connected records) uses).1 ++
      (History.run Use.step (connected records) uses).2.bytes = records.flatMap Record.bytes := by
  refine ⟨?_, read_in_order records uses⟩
  apply History.each_iff (I := fun _ => True) _ (fun _ _ _ _ _ => trivial) trivial hlen
  intro s u _ hu
  cases u with
  | arrive n => exact Iff.rfl
  | sslread datalen wait => exact forall_congr' fun h => sslread_positive_iff hu h

def hello : Record := ⟨[104, 101, 108, 108, 111], by decide, by decide⟩

theorem two_records_served : History.Each Use.step Use.Serves (connected [hello, hello])
    [.arrive 2, .sslread 3 ⟨0, []⟩, .sslread 3 ⟨0, [0]⟩] :=
  (never_stranded_iff [hello, hello] _ (by simp [Use.Admitted])).1.mpr (by
    simp only [History.each_cons, History.each_nil, Use.Readable, and_true, true_and]
    exact ⟨by decide, by decide⟩)

/-- One record of five bytes, of which the first call takes three: the second call times out. -/
theorem last_record_stranded : ¬ History.Each Use.step Use.Serves (connected [hello])
    [.sslread 3 ⟨1, []⟩, .sslread 3 ⟨0, []⟩] := by
  simp only [History.each_cons, History.each_nil, Use.Serves, and_true, not_and]
  intro _ h
  exact absurd (h (by decide)) (by decide)

end Runs

end Mangoxx.Mango
