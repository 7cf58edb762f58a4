import AcrnGuest.Loop
import AcrnGuest.Memory
import AcrnGuest.Checksum
import Mathlib.Tactic.IntervalCases

/-!
# The CRC of a buffer (`x86/crc32.c`)

`Crc32_ComputeBuf` runs over the bytes of a buffer with a table of 256 words. The
leading bytes of the table's words are pairwise different, so that one step of the
loop can be undone: the leading byte of the result gives the index, the index gives
back the byte that was shifted out.
-/

namespace AcrnGuest

abbrev Bytes := Word → BitVec 8

def crcTable : List Word :=
  [0x00000000#64, 0x77073096#64, 0xEE0E612C#64, 0x990951BA#64, 0x076DC419#64, 0x706AF48F#64,
    0xE963A535#64,
   0x9E6495A3#64, 0x0EDB8832#64, 0x79DCB8A4#64, 0xE0D5E91E#64, 0x97D2D988#64, 0x09B64C2B#64,
   0x7EB17CBD#64, 0xE7B82D07#64, 0x90BF1D91#64, 0x1DB71064#64, 0x6AB020F2#64, 0xF3B97148#64,
   0x84BE41DE#64, 0x1ADAD47D#64, 0x6DDDE4EB#64, 0xF4D4B551#64, 0x83D385C7#64, 0x136C9856#64,
   0x646BA8C0#64, 0xFD62F97A#64, 0x8A65C9EC#64, 0x14015C4F#64, 0x63066CD9#64, 0xFA0F3D63#64,
   0x8D080DF5#64, 0x3B6E20C8#64, 0x4C69105E#64, 0xD56041E4#64, 0xA2677172#64, 0x3C03E4D1#64,
   0x4B04D447#64, 0xD20D85FD#64, 0xA50AB56B#64, 0x35B5A8FA#64, 0x42B2986C#64, 0xDBBBC9D6#64,
   0xACBCF940#64, 0x32D86CE3#64, 0x45DF5C75#64, 0xDCD60DCF#64, 0xABD13D59#64, 0x26D930AC#64,
   0x51DE003A#64, 0xC8D75180#64, 0xBFD06116#64, 0x21B4F4B5#64, 0x56B3C423#64, 0xCFBA9599#64,
   0xB8BDA50F#64, 0x2802B89E#64, 0x5F058808#64, 0xC60CD9B2#64, 0xB10BE924#64, 0x2F6F7C87#64,
   0x58684C11#64, 0xC1611DAB#64, 0xB6662D3D#64, 0x76DC4190#64, 0x01DB7106#64, 0x98D220BC#64,
   0xEFD5102A#64, 0x71B18589#64, 0x06B6B51F#64, 0x9FBFE4A5#64, 0xE8B8D433#64, 0x7807C9A2#64,
   0x0F00F934#64, 0x9609A88E#64, 0xE10E9818#64, 0x7F6A0DBB#64, 0x086D3D2D#64, 0x91646C97#64,
   0xE6635C01#64, 0x6B6B51F4#64, 0x1C6C6162#64, 0x856530D8#64, 0xF262004E#64, 0x6C0695ED#64,
   0x1B01A57B#64, 0x8208F4C1#64, 0xF50FC457#64, 0x65B0D9C6#64, 0x12B7E950#64, 0x8BBEB8EA#64,
   0xFCB9887C#64, 0x62DD1DDF#64, 0x15DA2D49#64, 0x8CD37CF3#64, 0xFBD44C65#64, 0x4DB26158#64,
   0x3AB551CE#64, 0xA3BC0074#64, 0xD4BB30E2#64, 0x4ADFA541#64, 0x3DD895D7#64, 0xA4D1C46D#64,
   0xD3D6F4FB#64, 0x4369E96A#64, 0x346ED9FC#64, 0xAD678846#64, 0xDA60B8D0#64, 0x44042D73#64,
   0x33031DE5#64, 0xAA0A4C5F#64, 0xDD0D7CC9#64, 0x5005713C#64, 0x270241AA#64, 0xBE0B1010#64,
   0xC90C2086#64, 0x5768B525#64, 0x206F85B3#64, 0xB966D409#64, 0xCE61E49F#64, 0x5EDEF90E#64,
   0x29D9C998#64, 0xB0D09822#64, 0xC7D7A8B4#64, 0x59B33D17#64, 0x2EB40D81#64, 0xB7BD5C3B#64,
   0xC0BA6CAD#64, 0xEDB88320#64, 0x9ABFB3B6#64, 0x03B6E20C#64, 0x74B1D29A#64, 0xEAD54739#64,
   0x9DD277AF#64, 0x04DB2615#64, 0x73DC1683#64, 0xE3630B12#64, 0x94643B84#64, 0x0D6D6A3E#64,
   0x7A6A5AA8#64, 0xE40ECF0B#64, 0x9309FF9D#64, 0x0A00AE27#64, 0x7D079EB1#64, 0xF00F9344#64,
   0x8708A3D2#64, 0x1E01F268#64, 0x6906C2FE#64, 0xF762575D#64, 0x806567CB#64, 0x196C3671#64,
   0x6E6B06E7#64, 0xFED41B76#64, 0x89D32BE0#64, 0x10DA7A5A#64, 0x67DD4ACC#64, 0xF9B9DF6F#64,
   0x8EBEEFF9#64, 0x17B7BE43#64, 0x60B08ED5#64, 0xD6D6A3E8#64, 0xA1D1937E#64, 0x38D8C2C4#64,
   0x4FDFF252#64, 0xD1BB67F1#64, 0xA6BC5767#64, 0x3FB506DD#64, 0x48B2364B#64, 0xD80D2BDA#64,
   0xAF0A1B4C#64, 0x36034AF6#64, 0x41047A60#64, 0xDF60EFC3#64, 0xA867DF55#64, 0x316E8EEF#64,
   0x4669BE79#64, 0xCB61B38C#64, 0xBC66831A#64, 0x256FD2A0#64, 0x5268E236#64, 0xCC0C7795#64,
   0xBB0B4703#64, 0x220216B9#64, 0x5505262F#64, 0xC5BA3BBE#64, 0xB2BD0B28#64, 0x2BB45A92#64,
   0x5CB36A04#64, 0xC2D7FFA7#64, 0xB5D0CF31#64, 0x2CD99E8B#64, 0x5BDEAE1D#64, 0x9B64C2B0#64,
   0xEC63F226#64, 0x756AA39C#64, 0x026D930A#64, 0x9C0906A9#64, 0xEB0E363F#64, 0x72076785#64,
   0x05005713#64, 0x95BF4A82#64, 0xE2B87A14#64, 0x7BB12BAE#64, 0x0CB61B38#64, 0x92D28E9B#64,
   0xE5D5BE0D#64, 0x7CDCEFB7#64, 0x0BDBDF21#64, 0x86D3D2D4#64, 0xF1D4E242#64, 0x68DDB3F8#64,
   0x1FDA836E#64, 0x81BE16CD#64, 0xF6B9265B#64, 0x6FB077E1#64, 0x18B74777#64, 0x88085AE6#64,
   0xFF0F6A70#64, 0x66063BCA#64, 0x11010B5C#64, 0x8F659EFF#64, 0xF862AE69#64, 0x616BFFD3#64,
   0x166CCF45#64, 0xA00AE278#64, 0xD70DD2EE#64, 0x4E048354#64, 0x3903B3C2#64, 0xA7672661#64,
   0xD06016F7#64, 0x4969474D#64, 0x3E6E77DB#64, 0xAED16A4A#64, 0xD9D65ADC#64, 0x40DF0B66#64,
   0x37D83BF0#64, 0xA9BCAE53#64, 0xDEBB9EC5#64, 0x47B2CF7F#64, 0x30B5FFE9#64, 0xBDBDF21C#64,
   0xCABAC28A#64, 0x53B39330#64, 0x24B4A3A6#64, 0xBAD03605#64, 0xCDD70693#64, 0x54DE5729#64,
   0x23D967BF#64, 0xB3667A2E#64, 0xC4614AB8#64, 0x5D681B02#64, 0x2A6F2B94#64, 0xB40BBE37#64,
   0xC30C8EA1#64, 0x5A05DF1B#64, 0x2D02EF8D#64]

def crcStep (crc32 : Word) (b : BitVec 8) : Word :=
  (crc32 >>> 8) ^^^ crcTable.getD ((crc32 ^^^ b.setWidth 64) &&& 0xFF#64).toNat 0#64

def crc32ComputeBuf (inCrc32 : Word) (m : Bytes) (buf : Word) (bufLen : Nat) : Word :=
  Loop.up (fun i crc32 => crcStep crc32 (m (buf + BitVec.ofNat 64 i))) bufLen
    (inCrc32 ^^^ 0xFFFFFFFF#64) ^^^ 0xFFFFFFFF#64

/-! ### A step can be undone -/

theorem crcTable_lt : (crcTable.all fun e => Nat.ble e.toNat (2 ^ 32 - 1)) = true := by
  decide +kernel

theorem crcTable_distinct :
    Checksum.distinct 0 (crcTable.map fun e => e.toNat / 2 ^ 24) = true := by
  decide +kernel

theorem length_crcTable : crcTable.length = 256 := by decide +kernel

theorem crcTable_shift (i : Nat) : crcTable.getD i 0#64 >>> 32 = 0#64 := by
  rcases Nat.lt_or_ge i crcTable.length with hi | hi
  · have hle := Nat.ble_eq.mp (List.all_eq_true.mp crcTable_lt crcTable[i] (List.getElem_mem hi))
    rw [List.getD_eq_getElem _ _ hi]
    apply BitVec.eq_of_toNat_eq
    rw [BitVec.toNat_ushiftRight, Nat.shiftRight_eq_div_pow, Nat.div_eq_of_lt (by omega)]
    rfl
  · rw [List.getD_eq_default _ _ hi]
    rfl

/-- The leading byte of a word of the table tells its index. -/
theorem crcTable_inj {i j : Nat} (hi : i < 256) (hj : j < 256)
    (h : crcTable.getD i 0#64 >>> 24 = crcTable.getD j 0#64 >>> 24) : i = j := by
  have hnodup := (Checksum.nodup_of_distinct crcTable_distinct).1
  have htop := congrArg BitVec.toNat h
  rw [BitVec.toNat_ushiftRight, BitVec.toNat_ushiftRight, Nat.shiftRight_eq_div_pow,
    Nat.shiftRight_eq_div_pow, List.getD_eq_getElem _ _ (hi.trans_eq length_crcTable.symm),
    List.getD_eq_getElem _ _ (hj.trans_eq length_crcTable.symm)] at htop
  have hlen : (crcTable.map fun e => e.toNat / 2 ^ 24).length = 256 := by
    rw [List.length_map, length_crcTable]
  have hi' := hi.trans_eq hlen.symm
  have hj' := hj.trans_eq hlen.symm
  have hsame : (crcTable.map fun e => e.toNat / 2 ^ 24)[i] =
      (crcTable.map fun e => e.toNat / 2 ^ 24)[j] := by
    rw [List.getElem_map, List.getElem_map]
    exact htop
  exact hnodup.getElem_inj_iff.mp hsame

def crcPick (crc32 : Word) (b : BitVec 8) : Word := (crc32 ^^^ b.setWidth 64) &&& 0xFF#64

theorem crcPick_lt (crc32 : Word) (b : BitVec 8) : (crcPick crc32 b).toNat < 256 := by
  rw [crcPick, BitVec.toNat_and]
  exact Nat.lt_of_le_of_lt Nat.and_le_right (by decide)

theorem getLsbD_crcPick (crc32 : Word) (b : BitVec 8) {i : Nat} (hi : i < 8) :
    (crcPick crc32 b).getLsbD i = (crc32.getLsbD i ^^ b.getLsbD i) := by
  have hmask : (0xFF#64).getLsbD i = true := by
    interval_cases i <;> decide
  have hlt : i < 64 := by omega
  simp [crcPick, hmask, hlt]

/-- The leading byte of the result is that of the picked word. -/
theorem crcStep_shift {crc32 : Word} (hcrc : crc32 >>> 32 = 0#64) (b : BitVec 8) :
    crcStep crc32 b >>> 24 = crcTable.getD (crcPick crc32 b).toNat 0#64 >>> 24 := by
  rw [crcStep, BitVec.ushiftRight_xor_distrib, ← BitVec.shiftRight_add, hcrc, BitVec.zero_xor]
  rfl

theorem crcPick_eq {s t : Word} {a b : BitVec 8} (hs : s >>> 32 = 0#64) (ht : t >>> 32 = 0#64)
    (h : crcStep s a = crcStep t b) : crcPick s a = crcPick t b := by
  apply BitVec.eq_of_toNat_eq
  apply crcTable_inj (crcPick_lt s a) (crcPick_lt t b)
  rw [← crcStep_shift hs, ← crcStep_shift ht, h]

/-- The register of the CRC has 32 bits. -/
theorem reversible_crcStep : Checksum.Reversible crcStep fun crc32 => crc32 >>> 32 = 0#64 where
  maps crc32 b hcrc := by
    rw [crcStep, BitVec.ushiftRight_xor_distrib, crcTable_shift, BitVec.xor_zero,
      ← BitVec.shiftRight_add, Nat.add_comm, BitVec.shiftRight_add, hcrc]
    rfl
  state s t a hs ht h := by
    have hpick := crcPick_eq hs ht h
    have hhigh : s >>> 8 = t >>> 8 := by
      have hsame := h
      unfold crcStep at hsame
      rw [← crcPick, ← crcPick, hpick] at hsame
      exact (BitVec.xor_left_inj _).mp hsame
    apply BitVec.eq_of_getLsbD_eq
    intro i _
    rcases Nat.lt_or_ge i 8 with hlow | hhigh'
    · have hbit := congrArg (BitVec.getLsbD · i) hpick
      simp only [getLsbD_crcPick _ _ hlow] at hbit
      exact (Bool.xor_left_inj).mp hbit
    · have hbit := congrArg (BitVec.getLsbD · (i - 8)) hhigh
      simp only [BitVec.getLsbD_ushiftRight] at hbit
      rwa [Nat.add_sub_cancel' hhigh'] at hbit
  symbol s a b hs h := by
    have hpick := crcPick_eq hs hs h
    apply BitVec.eq_of_getLsbD_eq
    intro i hi
    have hbit := congrArg (BitVec.getLsbD · i) hpick
    simp only [getLsbD_crcPick _ _ hi] at hbit
    exact (Bool.xor_right_inj).mp hbit

/-! ### The whole buffer -/

def bufAddrs (buf : Word) (len : Nat) : List Word :=
  (List.range len).map fun i => buf + BitVec.ofNat 64 i

/-- The loop without the two complements around it. -/
theorem crcLoop_eq_foldl (crc32 : Word) (m : Bytes) (buf : Word) (len : Nat) :
    Loop.up (fun i crc32 => crcStep crc32 (m (buf + BitVec.ofNat 64 i))) len crc32 =
      ((bufAddrs buf len).map m).foldl crcStep crc32 := by
  induction len with
  | zero => rfl
  | succ len ih =>
      rw [Loop.up, ih, bufAddrs, bufAddrs, List.range_succ, List.map_append, List.map_append,
        List.foldl_append]
      rfl

/-- A second buffer goes on where the first one has stopped. -/
theorem crc32ComputeBuf_eq (inCrc32 : Word) (m : Bytes) (buf : Word) (len : Nat) :
    crc32ComputeBuf inCrc32 m buf len ^^^ 0xFFFFFFFF#64 =
      ((bufAddrs buf len).map m).foldl crcStep (inCrc32 ^^^ 0xFFFFFFFF#64) := by
  rw [crc32ComputeBuf, crcLoop_eq_foldl, BitVec.xor_assoc, BitVec.xor_self, BitVec.xor_zero]

theorem mem_bufAddrs {buf : Word} {len : Nat} (hlen : buf.toNat + len ≤ 2 ^ 64) {a : Word} :
    a ∈ bufAddrs buf len ↔ buf.toNat ≤ a.toNat ∧ a.toNat < buf.toNat + len := by
  have hbuf := buf.isLt
  have ha := a.isLt
  rw [bufAddrs, List.mem_map]
  constructor
  · rintro ⟨i, hi, rfl⟩
    rw [List.mem_range] at hi
    rw [BitVec.toNat_add, BitVec.toNat_ofNat]
    omega
  · rintro ⟨hlow, hhigh⟩
    refine ⟨a.toNat - buf.toNat, List.mem_range.mpr (by omega), ?_⟩
    apply BitVec.eq_of_toNat_eq
    rw [BitVec.toNat_add, BitVec.toNat_ofNat]
    omega

theorem nodup_bufAddrs (buf : Word) {len : Nat} (hlen : len ≤ 2 ^ 64) :
    (bufAddrs buf len).Nodup := by
  apply List.Nodup.map_on _ List.nodup_range
  intro i hi j hj heq
  rw [List.mem_range] at hi hj
  have htoNat := congrArg BitVec.toNat ((BitVec.add_right_inj _).mp heq)
  rw [BitVec.toNat_ofNat, BitVec.toNat_ofNat] at htoNat
  omega

end AcrnGuest
