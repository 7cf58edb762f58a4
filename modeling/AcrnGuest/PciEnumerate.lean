import AcrnGuest.PciConfig

/-!
# Enumerating the functions (`lib/pci_util.c`)

`pci_pdev_enumerate_dev` reads the two ids of every bus, device and function number and
stores the functions that are present, as long as the caller's array has room. A function
is present if neither of its ids is all ones, as `pci_dev_exists` tests it. The three loops
run through the function numbers `0, …, 65535` once, so the result is a prefix of the
present functions in ascending order.
-/

namespace AcrnGuest

/-! ### The source -/

def BUS_NUM : Nat := 256
def DEV_NUM : Nat := 32
def FUNC_NUM : Nat := 8
def PCI_VENDOR_ID : BitVec 32 := 0#32
def PCI_DEVICE_ID : BitVec 32 := 2#32

/-- The fields of `struct pci_dev` that the enumeration sets. -/
structure PciDev where
  bdf : BitVec 16
  venderId : BitVec 16
  deviceId : BitVec 16
deriving DecidableEq

/-- `union pci_bdf`, set by its bit fields. -/
def pciBdf (bus dev func : Nat) : BitVec 16 :=
  BitVec.ofNat 8 bus ++ BitVec.ofNat 5 dev ++ BitVec.ofNat 3 func

/-- The local variables of the loops, and the caller's array. -/
structure Enumeration where
  bridge : HostBridge
  devs : List PciDev
  i : BitVec 32

/-- The body of the innermost loop. There is no result if it stores behind the end of the array. -/
def enumerateFunc (mmcfgAddr nrDev : BitVec 32) (bdf : BitVec 16) (e : Enumeration) :
    Option Enumeration :=
  let vender := pciPdevReadCfg mmcfgAddr e.bridge bdf PCI_VENDOR_ID 2#32
  let device := pciPdevReadCfg mmcfgAddr vender.1 bdf PCI_DEVICE_ID 2#32
  let e := { e with bridge := device.1 }
  if vender.2 ≠ 0xFFFF#32 ∧ device.2 ≠ 0xFFFF#32 ∧ e.i < nrDev then
    if e.i.toNat < e.devs.length then
      some { e with
        devs := e.devs.set e.i.toNat ⟨bdf, vender.2.setWidth 16, device.2.setWidth 16⟩
        i := e.i + 1#32 }
    else none
  else some e

/-- `pci_pdev_enumerate_dev`: the array and the new value of `*nr_dev`. -/
def pciPdevEnumerateDev (mmcfgAddr : BitVec 32) (b : HostBridge) (devs : List PciDev)
    (nrDev : BitVec 32) :
    Option Enumeration :=
  Loop.tryUp (fun bus => Loop.tryUp (fun dev => Loop.tryUp (fun func =>
    enumerateFunc mmcfgAddr nrDev (pciBdf bus dev func)) FUNC_NUM) DEV_NUM) BUS_NUM ⟨b, devs, 0#32⟩

/-! ### The functions that are present -/

def wordAt (regs : CfgRegs) (bdf : BitVec 16) (off : Nat) : BitVec 16 :=
  readLanes 16 regs (fun k => some (bdf.toNat, off + k)) 2

/-- A function with its ids, if it is present. -/
def functionAt (regs : CfgRegs) (bdf : BitVec 16) : Option PciDev :=
  if wordAt regs bdf 0 ≠ 0xFFFF#16 ∧ wordAt regs bdf 2 ≠ 0xFFFF#16 then
    some ⟨bdf, wordAt regs bdf 0, wordAt regs bdf 2⟩
  else none

def presentBelow (regs : CfgRegs) (n : Nat) : List PciDev :=
  (List.range n).filterMap fun p => functionAt regs (BitVec.ofNat 16 p)

def presentFunctions (regs : CfgRegs) : List PciDev := presentBelow regs 65536

section Present

variable {regs : CfgRegs} {n : Nat}

theorem functionAt_eq_some_iff {bdf : BitVec 16} {d : PciDev} :
    functionAt regs bdf = some d ↔
      d = ⟨bdf, wordAt regs bdf 0, wordAt regs bdf 2⟩ ∧ d.venderId ≠ 0xFFFF#16 ∧
        d.deviceId ≠ 0xFFFF#16 := by
  unfold functionAt
  constructor
  · intro h
    split at h
    · next hpresent =>
        obtain rfl := Option.some.inj h
        exact ⟨rfl, hpresent⟩
    · cases h
  · rintro ⟨rfl, hpresent⟩
    exact if_pos hpresent

/-- Each present function is listed, with its own ids. -/
theorem mem_presentFunctions {d : PciDev} :
    d ∈ presentFunctions regs ↔ functionAt regs d.bdf = some d := by
  unfold presentFunctions presentBelow
  rw [List.mem_filterMap]
  constructor
  · rintro ⟨p, -, hp⟩
    obtain ⟨hd, -⟩ := functionAt_eq_some_iff.mp hp
    have hbdf : d.bdf = BitVec.ofNat 16 p := by rw [hd]
    rwa [hbdf]
  · intro h
    refine ⟨d.bdf.toNat, List.mem_range.mpr d.bdf.isLt, ?_⟩
    rwa [BitVec.ofNat_toNat, BitVec.setWidth_eq]

/-- The list is in strictly ascending order of bus, device and function. -/
theorem presentFunctions_sorted :
    (presentFunctions regs).Pairwise fun d d' => d.bdf.toNat < d'.bdf.toNat := by
  unfold presentFunctions presentBelow
  rw [List.pairwise_filterMap]
  refine List.Pairwise.imp_of_mem ?_ List.pairwise_lt_range
  intro p q hp hq hlt d hd d' hd'
  have hbdf : d.bdf = BitVec.ofNat 16 p := by rw [(functionAt_eq_some_iff.mp hd).1]
  have hbdf' : d'.bdf = BitVec.ofNat 16 q := by rw [(functionAt_eq_some_iff.mp hd').1]
  rw [hbdf, hbdf', BitVec.toNat_ofNat, BitVec.toNat_ofNat]
  have hp' := List.mem_range.mp hp
  have hq' := List.mem_range.mp hq
  omega

theorem presentBelow_succ :
    presentBelow regs (n + 1) = presentBelow regs n ++
      (functionAt regs (BitVec.ofNat 16 n)).toList := by
  unfold presentBelow
  rw [List.range_succ, List.filterMap_append]
  cases hfunc : functionAt regs (BitVec.ofNat 16 n) <;> simp [hfunc]

theorem length_presentBelow_le : (presentBelow regs n).length ≤ n := by
  have hle := List.length_filterMap_le (fun p => functionAt regs (BitVec.ofNat 16 p)) (List.range n)
  rwa [List.length_range] at hle

end Present

/-! ### One function -/

section Body

variable {mmcfgAddr : BitVec 32} {b : HostBridge} {e : Enumeration}

theorem pciPdevReadCfg_word (h : WindowKnown mmcfgAddr b) (bdf : BitVec 16) {off : Nat}
    (hoff : off < 256) (haligned : off % 2 = 0) :
    (pciPdevReadCfg mmcfgAddr b bdf (BitVec.ofNat 32 off) 2#32).2 =
      (wordAt b.regs bdf off).setWidth 32 := by
  let a := accessAt bdf off 2 hoff (Or.inr (Or.inl rfl)) haligned
  have hlane : a.lane = fun k => some (bdf.toNat, off + k) := by
    funext k
    exact congrArg (fun n => some (bdf.toNat, n + k)) (toNat_offset hoff)
  have hread := (a.readCfg_eq h).1
  rw [hlane] at hread
  exact hread

theorem setWidth_ne_ones_iff (x : BitVec 16) : x.setWidth 32 ≠ 0xFFFF#32 ↔ x ≠ 0xFFFF#16 := by
  have hlt := x.isLt
  rw [ne_eq, ne_eq, ← BitVec.toNat_inj, ← BitVec.toNat_inj, BitVec.toNat_setWidth,
    BitVec.toNat_ofNat, BitVec.toNat_ofNat, Nat.mod_eq_of_lt (by omega : x.toNat < 2 ^ 32)]

/-- The bridge after the two reads: the registers and the window are as before. -/
theorem enumerateFunc_eq (nrDev : BitVec 32) (h : WindowKnown mmcfgAddr e.bridge)
    (bdf : BitVec 16) :
    ∃ b', b'.regs = e.bridge.regs ∧ b'.ecamBase = e.bridge.ecamBase ∧
      enumerateFunc mmcfgAddr nrDev bdf e =
        match functionAt e.bridge.regs bdf with
        | some d =>
            if e.i < nrDev then
              if e.i.toNat < e.devs.length then some ⟨b', e.devs.set e.i.toNat d, e.i + 1#32⟩
                else none
            else some ⟨b', e.devs, e.i⟩
        | none => some ⟨b', e.devs, e.i⟩ := by
  have hvender : (pciPdevReadCfg mmcfgAddr e.bridge bdf PCI_VENDOR_ID 2#32).2 = _ :=
    pciPdevReadCfg_word h bdf (by decide : 0 < 256) rfl
  unfold enumerateFunc
  dsimp only
  rw [hvender]
  -- the bridge between the two reads
  obtain ⟨hregs, hbase⟩ := And.intro
    (pciPdevReadCfg_regs mmcfgAddr e.bridge bdf PCI_VENDOR_ID 2#32)
    (pciPdevReadCfg_ecamBase mmcfgAddr e.bridge bdf PCI_VENDOR_ID 2#32)
  generalize (pciPdevReadCfg mmcfgAddr e.bridge bdf PCI_VENDOR_ID 2#32).1 = b₁ at hregs hbase
  have hdevice : (pciPdevReadCfg mmcfgAddr b₁ bdf PCI_DEVICE_ID 2#32).2 = _ :=
    pciPdevReadCfg_word (h.congr hbase) bdf (by decide : 2 < 256) rfl
  rw [hregs] at hdevice
  refine ⟨(pciPdevReadCfg mmcfgAddr b₁ bdf PCI_DEVICE_ID 2#32).1,
    (pciPdevReadCfg_regs ..).trans hregs, (pciPdevReadCfg_ecamBase ..).trans hbase, ?_⟩
  have hback : ∀ x : BitVec 16, (x.setWidth 32).setWidth 16 = x := by
    intro x
    rw [BitVec.setWidth_setWidth_of_le x (by decide : 16 ≤ 32), BitVec.setWidth_eq]
  simp only [hdevice, setWidth_ne_ones_iff, hback, ← and_assoc]
  unfold functionAt
  by_cases hpresent : wordAt e.bridge.regs bdf 0 ≠ 0xFFFF#16 ∧
    wordAt e.bridge.regs bdf 2 ≠ 0xFFFF#16
  · by_cases hroom : e.i < nrDev
    · rw [if_pos ⟨hpresent, hroom⟩, if_pos hpresent]
      simp only [if_pos hroom]
    · rw [if_neg fun hboth => hroom hboth.2, if_pos hpresent]
      simp only [if_neg hroom]
  · rw [if_neg fun hboth => hpresent hboth.1, if_neg hpresent]

end Body

/-! ### All functions -/

section Run

variable {mmcfgAddr nrDev : BitVec 32} {b : HostBridge} {devs : List PciDev} {n : Nat}
  {e : Enumeration}

/-- After `n` functions: the array begins with the present ones, as many as there is room for. -/
structure Enumerated (b : HostBridge) (devs : List PciDev) (nrDev : BitVec 32) (n : Nat)
    (e : Enumeration) :
    Prop where
  regs : e.bridge.regs = b.regs
  ecamBase : e.bridge.ecamBase = b.ecamBase
  count : e.i.toNat = min nrDev.toNat (presentBelow b.regs n).length
  array : e.devs = (presentBelow b.regs n).take nrDev.toNat ++ devs.drop e.i.toNat

theorem set_drop_length (front : List PciDev) (d : PciDev) (h : front.length < devs.length) :
    (front ++ devs.drop front.length).set front.length d =
      (front ++ [d]) ++ devs.drop (front.length + 1) := by
  rw [List.set_append_right _ _ (Nat.le_refl _), Nat.sub_self, List.drop_eq_getElem_cons h,
    List.set_cons_zero, List.append_assoc, List.singleton_append]

/-- **One more function.** -/
theorem Enumerated.func (hwindow : WindowKnown mmcfgAddr b) (hroom : nrDev.toNat ≤ devs.length)
    (hn : n < 65536) (h : Enumerated b devs nrDev n e) :
    ∃ e', enumerateFunc mmcfgAddr nrDev (BitVec.ofNat 16 n) e = some e' ∧
      Enumerated b devs nrDev (n + 1) e' := by
  obtain ⟨b', hregs, hbase, hbody⟩ :=
    enumerateFunc_eq nrDev (hwindow.congr h.ecamBase) (BitVec.ofNat 16 n)
  have hle : (presentBelow b.regs n).length < 65536 := Nat.lt_of_le_of_lt length_presentBelow_le hn
  have hcount := h.count
  rw [h.regs] at hbody
  cases hfunc : functionAt b.regs (BitVec.ofNat 16 n) with
  | none =>
      have hsame : presentBelow b.regs (n + 1) = presentBelow b.regs n := by
        rw [presentBelow_succ, hfunc]
        exact List.append_nil _
      rw [hfunc] at hbody
      refine ⟨_, hbody, hregs.trans h.regs, hbase.trans h.ecamBase, ?_, ?_⟩
      · rw [hsame]
        exact hcount
      · rw [hsame]
        exact h.array
  | some d =>
      have hmore : presentBelow b.regs (n + 1) = presentBelow b.regs n ++ [d] := by
        rw [presentBelow_succ, hfunc]
        rfl
      rw [hfunc] at hbody
      dsimp only at hbody
      by_cases hfull : e.i < nrDev
      · -- there is room, so all functions so far are stored
        rw [BitVec.lt_def] at hfull
        have hall : e.i.toNat = (presentBelow b.regs n).length := by omega
        have htake : (presentBelow b.regs n).take nrDev.toNat = presentBelow b.regs n :=
          List.take_of_length_le (by omega)
        have harray : e.devs = presentBelow b.regs n ++
            devs.drop (presentBelow b.regs n).length := by
          rw [h.array, htake, hall]
        have hlength : e.i.toNat < e.devs.length := by
          rw [harray, List.length_append, List.length_drop]
          omega
        have hnext : (e.i + 1#32).toNat = (presentBelow b.regs n).length + 1 := by
          rw [BitVec.toNat_add, hall]
          exact Nat.mod_eq_of_lt (by rw [show (1#32).toNat = 1 from rfl]; omega)
        rw [if_pos (BitVec.lt_def.mpr hfull), if_pos hlength] at hbody
        refine ⟨_, hbody, hregs.trans h.regs, hbase.trans h.ecamBase, ?_, ?_⟩
        · rw [hmore, List.length_append, List.length_singleton]
          dsimp only
          omega
        · rw [hmore, List.take_of_length_le
            (by rw [List.length_append, List.length_singleton]; omega)]
          dsimp only
          rw [hnext, harray, hall, set_drop_length _ _ (by omega)]
      · rw [if_neg hfull] at hbody
        rw [BitVec.lt_def] at hfull
        have hstored : nrDev.toNat ≤ (presentBelow b.regs n).length := by omega
        refine ⟨_, hbody, hregs.trans h.regs, hbase.trans h.ecamBase, ?_, ?_⟩
        · rw [hmore, List.length_append]
          dsimp only
          omega
        · rw [hmore, List.take_append_of_le_length hstored]
          exact h.array

theorem Enumerated.run (hwindow : WindowKnown mmcfgAddr b) (hroom : nrDev.toNat ≤ devs.length)
    (hn : n ≤ 65536) :
    ∃ e, Loop.tryUp (fun p => enumerateFunc mmcfgAddr nrDev (BitVec.ofNat 16 p)) n
      ⟨b, devs, 0#32⟩ = some e ∧
      Enumerated b devs nrDev n e := by
  induction n with
  | zero => exact ⟨_, rfl, rfl, rfl, by simp [presentBelow], by simp [presentBelow]⟩
  | succ n ih =>
      obtain ⟨e, he, hinv⟩ := ih (by omega)
      obtain ⟨e', he', hinv'⟩ := hinv.func hwindow hroom (by omega)
      exact ⟨e', Loop.tryUp_succ_eq_some_iff.mpr ⟨e, he, he'⟩, hinv'⟩

theorem pciBdf_eq (bus : Nat) {dev func : Nat} (hdev : dev < DEV_NUM) (hfunc : func < FUNC_NUM) :
    pciBdf bus dev func = BitVec.ofNat 16 ((bus * DEV_NUM + dev) * FUNC_NUM + func) := by
  unfold DEV_NUM at hdev
  unfold FUNC_NUM at hfunc
  apply BitVec.eq_of_toNat_eq
  simp only [pciBdf, BitVec.toNat_append, BitVec.toNat_ofNat, DEV_NUM, FUNC_NUM]
  rw [← Nat.shiftLeft_add_eq_or_of_lt (by omega), ← Nat.shiftLeft_add_eq_or_of_lt (by omega),
    Nat.shiftLeft_eq, Nat.shiftLeft_eq]
  omega

/-- The three loops are one loop over the function numbers. -/
theorem pciPdevEnumerateDev_eq_tryUp :
    pciPdevEnumerateDev mmcfgAddr b devs nrDev =
      Loop.tryUp (fun p => enumerateFunc mmcfgAddr nrDev (BitVec.ofNat 16 p)) 65536
        ⟨b, devs, 0#32⟩ := by
  have hflat : (65536 : Nat) = BUS_NUM * DEV_NUM * FUNC_NUM := rfl
  rw [hflat, ← Loop.tryUp_nested, ← Loop.tryUp_nested]
  unfold pciPdevEnumerateDev
  refine Loop.tryUp_congr (fun bus _ => funext fun e =>
    Loop.tryUp_congr (fun dev hdev => funext fun e' =>
    Loop.tryUp_congr (fun func hfunc => ?_) e') e) _
  rw [pciBdf_eq bus hdev hfunc]

/-- **Enumeration.** The call fills the array with the first present functions, in ascending
order and each with its own ids, up to the capacity, leaves the other slots as they were and
counts what it filled in. -/
theorem pciPdevEnumerateDev_eq (mmcfgAddr nrDev : BitVec 32) (b : HostBridge) (devs : List PciDev)
    (hwindow : WindowKnown mmcfgAddr b) (hroom : nrDev.toNat ≤ devs.length) :
    (∃ e, pciPdevEnumerateDev mmcfgAddr b devs nrDev = some e ∧
      e.bridge.regs = b.regs ∧
      e.i.toNat = min nrDev.toNat (presentFunctions b.regs).length ∧
      e.devs = (presentFunctions b.regs).take nrDev.toNat ++ devs.drop e.i.toNat) ∧
    (presentFunctions b.regs).Pairwise (fun d d' => d.bdf.toNat < d'.bdf.toNat) ∧
    ∀ d : PciDev, d ∈ presentFunctions b.regs ↔
      d = ⟨d.bdf, wordAt b.regs d.bdf 0, wordAt b.regs d.bdf 2⟩ ∧ d.venderId ≠ 0xFFFF#16 ∧
        d.deviceId ≠ 0xFFFF#16 := by
  refine ⟨?_, presentFunctions_sorted, ?_⟩
  · rw [pciPdevEnumerateDev_eq_tryUp]
    obtain ⟨e, he, hinv⟩ := Enumerated.run hwindow hroom (Nat.le_refl 65536)
    exact ⟨e, he, hinv.regs, hinv.count, hinv.array⟩
  · intro d
    rw [mem_presentFunctions, functionAt_eq_some_iff]

/-- The functions `00:01.0` and `00:01.1`. -/
def twoFunctionBridge : HostBridge :=
  ⟨0#32, 0xE0000000#32, fun c => if (c.1 = 8 ∨ c.1 = 9) ∧ c.2 < 4 then 0x86#8 else 0xFF#8⟩

/-- The array has room for one of the two functions. -/
theorem pciPdevEnumerateDev_cut_off :
    ∃ e, pciPdevEnumerateDev 0#32 twoFunctionBridge (List.replicate 3 ⟨0#16, 0#16, 0#16⟩) 1#32 =
        some e ∧
      e.i.toNat = 1 ∧
      e.devs = (presentFunctions twoFunctionBridge.regs).take 1 ++
        (List.replicate 3 ⟨0#16, 0#16, 0#16⟩).drop 1 ∧
      ⟨8#16, 0x8686#16, 0x8686#16⟩ ∈ presentFunctions twoFunctionBridge.regs ∧
      ⟨9#16, 0x8686#16, 0x8686#16⟩ ∈ presentFunctions twoFunctionBridge.regs := by
  obtain ⟨⟨e, he, -, hcount, harray⟩, -, hmem⟩ :=
    pciPdevEnumerateDev_eq 0#32 1#32 twoFunctionBridge (List.replicate 3 ⟨0#16, 0#16, 0#16⟩)
      ⟨by decide, Or.inl rfl⟩ (by decide)
  have hfirst : ⟨8#16, 0x8686#16, 0x8686#16⟩ ∈ presentFunctions twoFunctionBridge.regs :=
    (hmem _).mpr (by decide)
  have hone : e.i.toNat = 1 := by
    rw [hcount]
    exact Nat.min_eq_left (List.length_pos_of_mem hfirst)
  rw [hone] at harray
  exact ⟨e, he, hone, harray, hfirst, (hmem _).mpr (by decide)⟩

end Run

end AcrnGuest
