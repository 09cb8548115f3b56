import Mangoxx.Lib.CInt
import Mangoxx.Lib.Loop
import Mangoxx.Lib.Memory
import Mangoxx.Mango.Helper

namespace Mangoxx.Mango.Port

open Mangoxx.Lib CInt

abbrev Failure := { retval : Int // -2 ^ 31 ≤ retval ∧ retval < 0 }

/-- What `recv` or `SSL_read` finds: bytes, of which it delivers as many as are asked for, or an
error. Without bytes the result is zero. -/
inductive ReadResult where
  | bytes (bs : List UInt8)
  | failed (retval : Failure)

/-- What a call meets: whether `select` reports the socket, the results of the calls that read, and
the readings of the clock, the first of them for `start`. -/
structure Inputs where
  ready : Bool
  results : Nat → ReadResult
  clock : Nat → UInt32

structure ReadLoop where
  received : Nat
  data : Memory UInt8
  calls : Nat
  delivered : List UInt8

namespace ReadLoop

def take (datalen : Nat) (bs : List UInt8) (v : ReadLoop) : ReadLoop :=
  let bs := bs.take (datalen - v.received)
  if 0 < bs.length then
    { received := (v.received + bs.length) % 2 ^ 32
      data := v.data.store v.received bs
      calls := v.calls + 1
      delivered := v.delivered ++ bs }
  else { v with calls := v.calls + 1 }

def turn (inp : Inputs) (datalen : Nat) (timeout : UInt32) (v : ReadLoop) :
    Turn ReadLoop ReadLoop :=
  match inp.results v.calls with
  | .bytes bs =>
    let v := v.take datalen bs
    if v.received < datalen ∧ elapsedTime (inp.clock v.calls) (inp.clock 0) < timeout then .again v
    else .stop v
  | .failed retval => .stop { v with received := uint32 retval, calls := v.calls + 1 }

end ReadLoop

structure Outcome where
  retval : Int
  data : Memory UInt8
  delivered : List UInt8

def ReadLoop.outcome (v : ReadLoop) : Outcome := ⟨int32 v.received, v.data, v.delivered⟩

def readPort (fuel : Nat) (inp : Inputs) (datalen : UInt16) (timeout : UInt32)
    (data : Memory UInt8) :
    Option Outcome :=
  if inp.ready then
    (Loop.iterate (ReadLoop.turn inp datalen.toNat timeout) fuel ⟨0, data, 0, []⟩).map
      ReadLoop.outcome
  else some ⟨0, data, []⟩

def mangoPortRead (fuel : Nat) (recv : Inputs) (datalen : UInt16) (timeout : UInt32)
    (data : Memory UInt8) : Option Outcome :=
  readPort fuel recv datalen timeout data

def mangoPortSslread (fuel : Nat) (sslRead : Inputs) (datalen : UInt16) (timeout : UInt32)
    (data : Memory UInt8) : Option Outcome :=
  readPort fuel sslRead datalen timeout data

/-- A result counts the bytes in `data`, which are those that were delivered; an error hides
none. -/
structure Outcome.Lossless (datalen : UInt16) (r : Outcome) : Prop where
  counts : 0 ≤ r.retval → r.retval = r.delivered.length ∧ r.delivered.length ≤ datalen.toNat ∧
    r.data.load 0 r.delivered.length = r.delivered
  fails : r.retval < 0 → r.delivered = []

namespace Inputs

def bytesOf : ReadResult → List UInt8
  | .bytes bs => bs
  | .failed _ => []

def total (inp : Inputs) (n : Nat) : Nat :=
  ((List.range n).flatMap fun i => bytesOf (inp.results i)).length

/-- The loop comes to call `n`: nothing failed before it, and after each call there were bytes
missing and time left. -/
def Reaches (inp : Inputs) (datalen : UInt16) (timeout : UInt32) (n : Nat) : Prop :=
  ∀ i < n, (∃ bs, inp.results i = .bytes bs) ∧ inp.total (i + 1) < datalen.toNat ∧
    elapsedTime (inp.clock (i + 1)) (inp.clock 0) < timeout

def FailsFirst (inp : Inputs) (datalen : UInt16) (timeout : UInt32) : Prop :=
  ∀ n retval, inp.Reaches datalen timeout n → inp.results n = .failed retval → inp.total n = 0

theorem total_succ (inp : Inputs) (n : Nat) :
    inp.total (n + 1) = inp.total n + (bytesOf (inp.results n)).length := by
  rw [total, List.range_succ, List.flatMap_append, List.length_append,
    List.flatMap_singleton, total]

end Inputs

section Loop

variable {inp : Inputs} {datalen : UInt16} {timeout : UInt32} {n : Nat} {v : ReadLoop}

structure At (inp : Inputs) (datalen : UInt16) (n : Nat) (v : ReadLoop) : Prop where
  calls : v.calls = n
  received : v.received = inp.total n
  delivered : v.delivered.length = inp.total n
  fits : inp.total n ≤ datalen.toNat
  data : v.data.load 0 v.delivered.length = v.delivered

theorem At.take (h : At inp datalen n v) (bs : List UInt8) :
    let v' := v.take datalen.toNat bs
    let taken := bs.take (datalen.toNat - v.received)
    v'.calls = n + 1 ∧ v'.received = v.received + taken.length ∧
      v'.delivered = v.delivered ++ taken ∧
      v'.data.load 0 v'.delivered.length = v'.delivered := by
  intro v' taken
  have hsize := datalen.toNat_lt
  have hreceived := h.received
  have hfits := h.fits
  have hlength : taken.length ≤ datalen.toNat - v.received := List.length_take_le _ _
  by_cases hsome : 0 < taken.length
  · have hv' : v' =
        ⟨(v.received + taken.length) % 2 ^ 32, v.data.store v.received taken, v.calls + 1,
          v.delivered ++ taken⟩ := if_pos hsome
    rw [hv']
    refine ⟨congrArg (· + 1) h.calls, Nat.mod_eq_of_lt (by omega), rfl, ?_⟩
    have hbefore : (v.data.store v.received taken).load 0 v.delivered.length = v.delivered := by
      rw [Memory.load_store_of_disjoint _ (.inl (by rw [h.delivered, h.received]; omega)), h.data]
    have hbehind : (v.data.store v.received taken).load (0 + v.delivered.length) taken.length =
        taken := by
      rw [h.delivered, ← h.received, Int.zero_add]
      exact Memory.load_store_self _ _ _
    rw [List.length_append, Memory.load_add, hbefore, hbehind]
  · have hnil : taken = [] := List.length_eq_zero_iff.mp (by omega)
    have hv' : v' = { v with calls := v.calls + 1 } := if_neg hsome
    rw [hv', hnil]
    exact ⟨congrArg (· + 1) h.calls, rfl, (List.append_nil _).symm, h.data⟩

variable (hv : At inp datalen n v)

include hv

theorem At.again (hreach : inp.Reaches datalen timeout n)
    (hturn : ReadLoop.turn inp datalen.toNat timeout v = .again v') :
    At inp datalen (n + 1) v' ∧ inp.Reaches datalen timeout (n + 1) := by
  rw [ReadLoop.turn, hv.calls] at hturn
  cases hresult : inp.results n with
  | failed retval =>
    rw [hresult] at hturn
    cases hturn
  | bytes bs =>
    obtain ⟨hcalls, hreceived, hdelivered, hdata⟩ := hv.take bs
    have hfits := hv.fits
    have hlength : (bs.take (datalen.toNat - v.received)).length =
        min (datalen.toNat - v.received) bs.length := List.length_take
    have htotal := inp.total_succ n
    rw [hresult, Inputs.bytesOf] at htotal
    simp only [hresult] at hturn
    split at hturn
    next hmore =>
      obtain rfl := Turn.again.inj hturn
      obtain ⟨hless, htime⟩ := hmore
      rw [hcalls] at htime
      rw [hreceived, hv.received] at hless
      rw [hv.received] at hlength hreceived
      have hwhole : (bs.take (datalen.toNat - inp.total n)).length = bs.length := by omega
      refine ⟨⟨hcalls, by omega, ?_, by omega, hdata⟩, fun i hi => ?_⟩
      · rw [hdelivered, List.length_append, hv.delivered, hv.received]
        omega
      · rcases Nat.lt_succ_iff_lt_or_eq.mp hi with hi | rfl
        · exact hreach i hi
        · exact ⟨⟨bs, hresult⟩, by omega, htime⟩
    next => cases hturn

theorem At.stop (hresult : inp.results n = .bytes bs)
    (hturn : ReadLoop.turn inp datalen.toNat timeout v = .stop v') :
    v'.outcome.Lossless datalen := by
  obtain ⟨hcalls, hreceived, hdelivered, hdata⟩ := hv.take bs
  have hsize := datalen.toNat_lt
  have hfits := hv.fits
  have hlength : (bs.take (datalen.toNat - v.received)).length ≤ datalen.toNat - v.received :=
    List.length_take_le _ _
  rw [ReadLoop.turn, hv.calls] at hturn
  simp only [hresult] at hturn
  split at hturn
  next => cases hturn
  next =>
    obtain rfl := Turn.stop.inj hturn
    have hcount : (v.take datalen.toNat bs).received =
        (v.take datalen.toNat bs).delivered.length := by
      rw [hreceived, hdelivered, List.length_append, hv.delivered, hv.received]
    have hle : (v.take datalen.toNat bs).received ≤ datalen.toNat := by
      rw [hreceived]
      rw [← hv.received] at hfits
      omega
    have hretval : (v.take datalen.toNat bs).outcome.retval =
        ((v.take datalen.toNat bs).received : Int) := int32_eq ⟨by omega, by omega⟩
    refine ⟨fun _ => ⟨?_, ?_, hdata⟩, fun hneg => ?_⟩
    · rw [hretval, hcount]
      rfl
    · exact hcount ▸ hle
    · omega

variable (timeout) in
/-- The error takes the place of the count. -/
theorem At.failed (hresult : inp.results n = .failed retval) :
    ∃ v', ReadLoop.turn inp datalen.toNat timeout v = .stop v' ∧
      (v'.outcome.Lossless datalen ↔ inp.total n = 0) := by
  obtain ⟨hlow, hneg⟩ := retval.property
  refine ⟨{ v with received := uint32 retval, calls := v.calls + 1 }, ?_, ?_⟩
  · rw [ReadLoop.turn, hv.calls]
    simp only [hresult]
  · have hretval :
        ({ v with received := uint32 retval, calls := v.calls + 1 } : ReadLoop).outcome.retval =
          retval := int32_uint32 ⟨hlow, by omega⟩
    rw [← hv.delivered, List.length_eq_zero_iff]
    constructor
    · intro h
      exact h.fails (by rw [hretval]; exact hneg)
    · intro hnil
      exact ⟨fun h => absurd h (by rw [hretval]; omega), fun _ => hnil⟩

omit hv

theorem At.start (data : Memory UInt8) : At inp datalen 0 ⟨0, data, 0, []⟩ :=
  ⟨rfl, rfl, rfl, Nat.zero_le _, rfl⟩

theorem reaches_goes (data : Memory UInt8) (hreach : inp.Reaches datalen timeout n) :
    ∃ v, At inp datalen n v ∧
      Loop.Goes (ReadLoop.turn inp datalen.toNat timeout) ⟨0, data, 0, []⟩ v := by
  induction n with
  | zero => exact ⟨_, .start data, .refl⟩
  | succ n ih =>
    obtain ⟨v, hv, hgoes⟩ := ih fun i hi => hreach i (Nat.lt_succ_of_lt hi)
    obtain ⟨⟨bs, hresult⟩, hless, htime⟩ := hreach n (Nat.lt_succ_self n)
    obtain ⟨hcalls, hreceived, -⟩ := hv.take bs
    have htotal := inp.total_succ n
    rw [hresult, Inputs.bytesOf] at htotal
    have hlength : (bs.take (datalen.toNat - v.received)).length ≤ bs.length :=
      List.length_take_le' _ _
    have hmore : (v.take datalen.toNat bs).received < datalen.toNat := by
      rw [hreceived, hv.received]
      rw [hv.received] at hlength
      omega
    have hturn : ReadLoop.turn inp datalen.toNat timeout v = .again (v.take datalen.toNat bs) := by
      rw [ReadLoop.turn, hv.calls]
      simp only [hresult]
      rw [if_pos ⟨hmore, by rwa [hcalls]⟩]
    exact ⟨_, (hv.again (fun i hi => hreach i (Nat.lt_succ_of_lt hi)) hturn).1, hgoes.tail hturn⟩

theorem iterate_lossless (hfails : inp.FailsFirst datalen timeout) (hv : At inp datalen n v)
    (hreach : inp.Reaches datalen timeout n) {fuel : Nat}
    (hrun : Loop.iterate (ReadLoop.turn inp datalen.toNat timeout) fuel v = some v') :
    v'.outcome.Lossless datalen := by
  induction fuel generalizing n v with
  | zero => cases hrun
  | succ fuel ih =>
    rw [Loop.iterate] at hrun
    cases hturn : ReadLoop.turn inp datalen.toNat timeout v with
    | again v'' =>
      rw [hturn] at hrun
      obtain ⟨hv'', hreach'⟩ := hv.again hreach hturn
      exact ih hv'' hreach' hrun
    | stop v'' =>
      rw [hturn] at hrun
      obtain rfl := Option.some.inj hrun
      cases hresult : inp.results n with
      | bytes bs => exact hv.stop hresult hturn
      | failed retval =>
        obtain ⟨last, hlast, hiff⟩ := hv.failed timeout hresult
        obtain rfl := Turn.stop.inj (hturn.symm.trans hlast)
        exact hiff.mpr (hfails n retval hreach hresult)

end Loop

section Read

variable (inp : Inputs) (datalen : UInt16) (timeout : UInt32) (data : Memory UInt8)

theorem readPort_lossless_iff :
    (∀ fuel r, readPort fuel inp datalen timeout data = some r → r.Lossless datalen) ↔
      (inp.ready = true → inp.FailsFirst datalen timeout) := by
  constructor
  · intro hall hready n retval hreach hresult
    obtain ⟨v, hv, hgoes⟩ := reaches_goes data hreach
    obtain ⟨v', hturn, hiff⟩ := hv.failed timeout hresult
    obtain ⟨fuel, hfuel⟩ := hgoes.ends (Loop.ends_stop hturn)
    refine hiff.mp (hall fuel v'.outcome ?_)
    rw [readPort, if_pos hready, hfuel, Option.map_some]
  · intro hfails fuel r hr
    rw [readPort] at hr
    split at hr
    next hready =>
      obtain ⟨v, hrun, rfl⟩ := Option.map_eq_some_iff.mp hr
      exact iterate_lossless (hfails hready) (.start data)
        (fun i hi => absurd hi (Nat.not_lt_zero i)) hrun
    next =>
      obtain rfl := Option.some.inj hr
      exact ⟨fun _ => ⟨rfl, Nat.zero_le _, rfl⟩, nofun⟩

theorem turn_again {v v' : ReadLoop} {size : Nat} (hturn : v.turn inp size timeout = .again v') :
    v'.calls = v.calls + 1 ∧ elapsedTime (inp.clock v'.calls) (inp.clock 0) < timeout := by
  rw [ReadLoop.turn] at hturn
  split at hturn
  next bs _ =>
    have hcalls : (v.take size bs).calls = v.calls + 1 := by
      rw [ReadLoop.take]
      split <;> rfl
    simp only at hturn
    split at hturn
    next hmore =>
      obtain rfl := Turn.again.inj hturn
      exact ⟨hcalls, hmore.2⟩
    next => cases hturn
  next => cases hturn

/-- The call returns once the clock shows that the time is over. -/
theorem readPort_returns {n : Nat} (hn : timeout ≤ elapsedTime (inp.clock (n + 1)) (inp.clock 0)) :
    ∃ fuel r, readPort fuel inp datalen timeout data = some r := by
  have hends (k : Nat) (v : ReadLoop) (hv : v.calls + k = n) :
      ∃ v', Loop.Ends (ReadLoop.turn inp datalen.toNat timeout) v v' := by
    induction k generalizing v with
    | zero =>
      cases hturn : v.turn inp datalen.toNat timeout with
      | again v' =>
        obtain ⟨hcalls, htime⟩ := turn_again inp timeout hturn
        rw [hcalls, show v.calls = n from hv] at htime
        exact absurd htime (UInt32.not_lt.mpr hn)
      | stop v' => exact ⟨v', Loop.ends_stop hturn⟩
    | succ k ih =>
      cases hturn : v.turn inp datalen.toNat timeout with
      | again v' =>
        obtain ⟨hcalls, -⟩ := turn_again inp timeout hturn
        obtain ⟨last, hlast⟩ := ih v' (by omega)
        exact ⟨last, hlast.again hturn⟩
      | stop v' => exact ⟨v', Loop.ends_stop hturn⟩
  cases hready : inp.ready with
  | false => exact ⟨0, _, if_neg (by rw [hready]; decide)⟩
  | true =>
    obtain ⟨v, fuel, hfuel⟩ := hends n ⟨0, data, 0, []⟩ (Nat.zero_add n)
    refine ⟨fuel, v.outcome, ?_⟩
    rw [readPort, if_pos hready, hfuel, Option.map_some]

/-- No byte is lost exactly if no read that the loop comes to fails after one that had bytes. -/
theorem port_reads_lossless_iff :
    ((∀ fuel r, mangoPortRead fuel inp datalen timeout data = some r → r.Lossless datalen) ↔
      (inp.ready = true → inp.FailsFirst datalen timeout)) ∧
    ((∀ fuel r, mangoPortSslread fuel inp datalen timeout data = some r → r.Lossless datalen) ↔
      (inp.ready = true → inp.FailsFirst datalen timeout)) :=
  ⟨readPort_lossless_iff inp datalen timeout data, readPort_lossless_iff inp datalen timeout data⟩

def resetAfterThree : Inputs where
  ready := true
  results n := if n = 0 then .bytes [1, 2, 3] else .failed ⟨-1, by decide⟩
  clock _ := 0

theorem three_bytes_lost : ¬ ∀ fuel r,
    mangoPortRead fuel resetAfterThree 8 1000 (fun _ => 0) = some r → r.Lossless 8 := by
  intro h
  have hr := h 2 ⟨-1, _, [1, 2, 3]⟩ rfl
  exact absurd (hr.fails (by decide)) (by decide)

end Read

end Mangoxx.Mango.Port
