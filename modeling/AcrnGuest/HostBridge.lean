import AcrnGuest.Loop
import Mathlib.Data.Nat.Bitwise
import Mathlib.Logic.Function.Basic

/-!
# A standard PCI host bridge

An access of several bytes goes over byte lanes: the processor puts the byte `k` of a
little-endian access on the `k`th port or address from the first one on. A lane either
reaches one byte of a function's configuration registers or none.

The address port `0xCF8` latches a bus, device, function and dword, whose low two bits
are ignored; the data port `0xCFC + i` reaches the byte `i` of that dword. The memory
window of 256 MiB maps the registers of each function at `bdf * 4096`.
-/

namespace AcrnGuest

/-! ### Byte lanes -/

/-- A byte of the configuration registers: the number of the function, and of the register. -/
abbrev CfgByte : Type := Nat × Nat

abbrev CfgRegs : Type := CfgByte → BitVec 8

/-- The value on the lanes, the lowest byte first; a lane that reaches nothing reads all ones. -/
def readLanes (w : Nat) (regs : CfgRegs) (lane : Nat → Option CfgByte) : Nat → BitVec w
  | 0 => 0
  | n + 1 => readLanes w regs lane n ||| (((lane n).elim 0xFF#8 regs).setWidth w <<< (8 * n))

def writeLanes {w : Nat} (regs : CfgRegs) (lane : Nat → Option CfgByte)
    (value : BitVec w) (n : Nat) :
    CfgRegs :=
  Loop.up (fun k regs =>
    match lane k with
    | some c => Function.update regs c ((value >>> (8 * k)).setWidth 8)
    | none => regs) n regs

variable {w n : Nat} {regs regs' : CfgRegs} {lane lane' : Nat → Option CfgByte}

/-- A value read depends on the bytes that the lanes reach. -/
theorem readLanes_congr (h : ∀ k, k < n → (lane k).elim 0xFF#8 regs = (lane' k).elim 0xFF#8 regs') :
    readLanes w regs lane n = readLanes w regs' lane' n := by
  induction n with
  | zero => rfl
  | succ n ih =>
      rw [readLanes, readLanes, ih fun k hk => h k (Nat.lt_succ_of_lt hk), h n (Nat.lt_succ_self n)]

theorem writeLanes_congr (h : ∀ k, k < n → lane k = lane' k) (value : BitVec w) :
    writeLanes regs lane value n = writeLanes regs lane' value n := by
  unfold writeLanes
  induction n with
  | zero => rfl
  | succ n ih =>
      rw [Loop.up, Loop.up, ih fun k hk => h k (Nat.lt_succ_of_lt hk), h n (Nat.lt_succ_self n)]

theorem writeLanes_of_not_reached {c : CfgByte} (h : ∀ k, k < n → lane k ≠ some c)
    (value : BitVec w) : writeLanes regs lane value n c = regs c := by
  unfold writeLanes
  induction n with
  | zero => rfl
  | succ n ih =>
      rw [Loop.up]
      have hprev := ih fun k hk => h k (Nat.lt_succ_of_lt hk)
      cases hlane : lane n with
      | none => exact hprev
      | some c' =>
          have hne : c ≠ c' := by
            rintro rfl
            exact h n (Nat.lt_succ_self n) hlane
          exact (Function.update_of_ne hne ..).trans hprev

/-- The low byte of a value read is that of the first lane. -/
theorem setWidth_readLanes (hw : 8 ≤ w) (hn : 0 < n) :
    (readLanes w regs lane n).setWidth 8 = (lane 0).elim 0xFF#8 regs := by
  induction n with
  | zero => omega
  | succ n ih =>
      rw [readLanes, BitVec.setWidth_or]
      cases n with
      | zero =>
          ext i hi
          have hiw : i < w := by omega
          simp [readLanes, hiw, BitVec.getLsbD_eq_getElem hi]
      | succ n =>
          rw [ih (Nat.succ_pos n)]
          ext i hi
          simp
          omega

/-- A bit of a value read is one of the byte on its lane. -/
theorem getLsbD_readLanes (hw : 8 * n ≤ w) (i : Nat) :
    (readLanes w regs lane n).getLsbD i =
      if i < 8 * n then ((lane (i / 8)).elim 0xFF#8 regs).getLsbD (i % 8) else false := by
  induction n with
  | zero => simp [readLanes]
  | succ n ih =>
      rw [readLanes, BitVec.getLsbD_or, BitVec.getLsbD_shiftLeft, BitVec.getLsbD_setWidth,
        ih (by omega)]
      by_cases hlow : i < 8 * n
      · have hlow' : i < 8 * (n + 1) := by omega
        simp [hlow, hlow']
      · by_cases hin : i < 8 * (n + 1)
        · have hdiv : i / 8 = n := by omega
          have hmod : i % 8 = i - 8 * n := by omega
          have hiw : i < w := by omega
          have hsub : i - 8 * n < w := by omega
          simp [hlow, hin, hdiv, hmod, hiw, hsub]
        · have hbyte : ((lane n).elim 0xFF#8 regs).getLsbD (i - 8 * n) = false :=
            BitVec.getLsbD_of_ge _ _ (by omega)
          simp [hlow, hin, hbyte]

/-- The byte on a lane is stored, if no other lane reaches the same byte. -/
theorem writeLanes_lane {c : CfgByte} {k : Nat} (hk : k < n) (hc : lane k = some c)
    (hothers : ∀ j, j < n → j ≠ k → lane j ≠ some c) (value : BitVec w) :
    writeLanes regs lane value n c = (value >>> (8 * k)).setWidth 8 := by
  unfold writeLanes
  induction n with
  | zero => omega
  | succ n ih =>
      rw [Loop.up]
      rcases Nat.lt_succ_iff_lt_or_eq.mp hk with hlt | rfl
      · have hprev := ih hlt fun j hj => hothers j (Nat.lt_succ_of_lt hj)
        cases hlane : lane n with
        | none => exact hprev
        | some c' =>
            have hne : c ≠ c' := by
              rintro rfl
              exact hothers n (Nat.lt_succ_self n) (Nat.ne_of_gt hlt) hlane
            exact (Function.update_of_ne hne ..).trans hprev
      · simp only [hc, Function.update_self]

/-! ### Hardwired bits -/

/-- What a register holds after a write: only the bits of the mask are writable. -/
def settle {w : Nat} (writable old new : BitVec w) : BitVec w :=
  (old &&& ~~~ writable) ||| (new &&& writable)

theorem getLsbD_settle (writable old new : BitVec w) (i : Nat) :
    (settle writable old new).getLsbD i =
      if writable.getLsbD i then new.getLsbD i else old.getLsbD i := by
  by_cases hi : i < w
  · simp only [settle, BitVec.getLsbD_or, BitVec.getLsbD_and, BitVec.getLsbD_not, decide_eq_true hi]
    cases writable.getLsbD i <;> simp
  · simp [BitVec.getLsbD_of_ge _ _ (Nat.le_of_not_lt hi)]

theorem settle_self (writable old : BitVec w) : settle writable old old = old := by
  apply BitVec.eq_of_getLsbD_eq
  intro i _
  simp [getLsbD_settle]

/-- Writing the old value back undoes any write. -/
theorem settle_restore (writable old new : BitVec w) :
    settle writable (settle writable old new) old = old := by
  apply BitVec.eq_of_getLsbD_eq
  intro i _
  cases hbit : writable.getLsbD i <;> simp [getLsbD_settle, hbit]

def settleRegs (writable old new : CfgRegs) : CfgRegs :=
  fun c => settle (writable c) (old c) (new c)

/-- A value read after a write keeps its hardwired bits. -/
theorem readLanes_settleRegs {writable : CfgRegs} (hw : 8 * n ≤ w)
    (hlane : ∀ k, k < n → (lane k).isSome) :
    readLanes w (settleRegs writable regs regs') lane n =
      settle (readLanes w writable lane n) (readLanes w regs lane n)
        (readLanes w regs' lane n) := by
  apply BitVec.eq_of_getLsbD_eq
  intro i _
  simp only [getLsbD_settle, getLsbD_readLanes hw]
  by_cases hi : i < 8 * n
  · obtain ⟨c, hc⟩ := Option.isSome_iff_exists.mp (hlane (i / 8) (by omega))
    simp [hi, hc, settleRegs, getLsbD_settle]
  · simp [hi]

/-! ### The bridge -/

structure HostBridge where
  configAddress : BitVec 32
  ecamBase : BitVec 32
  regs : CfgRegs

def HostBridge.dataLane (b : HostBridge) (port : BitVec 16) (k : Nat) : Option CfgByte :=
  if 0xCFC ≤ port.toNat + k ∧ port.toNat + k < 0xD00 ∧ 2 ^ 31 ≤ b.configAddress.toNat then
    some (b.configAddress.toNat / 256 % 65536,
      b.configAddress.toNat / 4 % 64 * 4 + (port.toNat + k - 0xCFC))
  else none

def HostBridge.ecamLane (b : HostBridge) (addr : Nat) (k : Nat) : Option CfgByte :=
  if b.ecamBase.toNat ≤ addr + k ∧ addr + k < b.ecamBase.toNat + 2 ^ 28 then
    some ((addr + k - b.ecamBase.toNat) / 4096, (addr + k - b.ecamBase.toNat) % 4096)
  else none

def HostBridge.portIn (b : HostBridge) (w : Nat) (port : BitVec 16) (n : Nat) : BitVec w :=
  readLanes w b.regs (b.dataLane port) n

/-- `out` of `n` bytes. Only a whole dword latches the address. -/
def HostBridge.portOut {w : Nat} (b : HostBridge) (value : BitVec w) (port : BitVec 16) (n : Nat) :
    HostBridge :=
  if port = 0xCF8#16 ∧ n = 4 then { b with configAddress := value.setWidth 32 }
  else { b with regs := writeLanes b.regs (b.dataLane port) value n }

theorem HostBridge.portOut_regs {w : Nat} (b : HostBridge) (value : BitVec w)
    {port : BitVec 16} {n : Nat} (h : port ≠ 0xCF8#16 ∨ n ≠ 4) :
    (b.portOut value port n).regs = writeLanes b.regs (b.dataLane port) value n := by
  rw [HostBridge.portOut, if_neg (by rintro ⟨hport, hn⟩; exact h.elim (· hport) (· hn))]

def HostBridge.memIn (b : HostBridge) (w : Nat) (addr : Nat) (n : Nat) : BitVec w :=
  readLanes w b.regs (b.ecamLane addr) n

def HostBridge.memOut {w : Nat} (b : HostBridge) (value : BitVec w) (addr : Nat) (n : Nat) :
    HostBridge :=
  { b with regs := writeLanes b.regs (b.ecamLane addr) value n }

end AcrnGuest
