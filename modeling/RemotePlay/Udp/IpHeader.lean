import RemotePlay.Config
import RemotePlay.Lib.OnesComplement
import Mathlib.Algebra.Order.Group.Nat
import Mathlib.Logic.Function.Basic

/-! # The IP and UDP headers

Every packet sent starts with a header copied from a captured packet, in which the lengths, the
ports and the checksum of the IP header are patched (`init_udp_packet`).  The machine is
little-endian; what goes on the wire is big-endian.  The IP header verifies, whatever the captured
one was (`initUdpPacket_spec`). -/

namespace RemotePlay.Udp

open RemotePlay.Lib OnesComplement
open Function (update)

/-- The port that packets are sent from. -/
def RP_SRC_PORT : ℕ := 8000

/-- Bytes of memory by their address. -/
abbrev Mem := ℕ → UInt8

/-- A `u16` read from memory. -/
def load16 (m : Mem) (a : ℕ) : ℕ := (m a).toNat + 2 ^ 8 * (m (a + 1)).toNat

/-- A `u16` written to memory. -/
def store16 (m : Mem) (a v : ℕ) : Mem :=
  update (update m a (UInt8.ofNat v)) (a + 1) (UInt8.ofNat (v / 2 ^ 8))

/-- `htons` and `ntohs`. -/
def htons (v : ℕ) : ℕ := v % 2 ^ 8 * 2 ^ 8 + v / 2 ^ 8 % 2 ^ 8

/-- A word of the wire. -/
def wire16 (m : Mem) (a : ℕ) : ℕ := 2 ^ 8 * (m a).toNat + (m (a + 1)).toNat

/-- The words of the wire at an address. -/
def wireWords (m : Mem) (a n : ℕ) : List ℕ := (List.range n).map fun i => wire16 m (a + 2 * i)

/-- `ip_checksum`, with the memory it leaves: an odd length is made even with a zero. -/
def ipChecksum (m : Mem) (data length : ℕ) : Mem × ℕ :=
  let m := if length % 2 ≠ 0 then update m (data + length) 0 else m
  let length := if length % 2 ≠ 0 then length + 1 else length
  let length := length / 2
  let acc := (List.range length).foldl
    (fun acc i => (acc + htons (load16 m (data + 2 * i))) % 2 ^ 32) 0
  let acc := acc % 2 ^ 16 + acc / 2 ^ 16
  let acc := (acc + acc / 2 ^ 16) % 2 ^ 32
  (m, htons ((2 ^ 32 - 1 - acc) % 2 ^ 16))

/-- `init_udp_packet`, with the memory it leaves. -/
def initUdpPacket (m : Mem) (nwm_buf dst_port len : ℕ) : Mem × ℕ :=
  let len := (len + 8) % 2 ^ 32
  let m := store16 m (nwm_buf + (0x22 + 8)) (htons RP_SRC_PORT)
  let m := store16 m (nwm_buf + (0x24 + 8)) (htons (dst_port % 2 ^ 16))
  let m := store16 m (nwm_buf + (0x26 + 8)) (htons (len % 2 ^ 16))
  let m := store16 m (nwm_buf + (0x28 + 8)) 0
  let len := (len + 20) % 2 ^ 32
  let m := store16 m (nwm_buf + (0x10 + 8)) (htons (len % 2 ^ 16))
  let m := store16 m (nwm_buf + (0x12 + 8)) 0xaf01
  let m := store16 m (nwm_buf + (0x14 + 8)) 0x0040
  let m := store16 m (nwm_buf + (0x16 + 8)) 0x1140
  let m := store16 m (nwm_buf + (0x18 + 8)) 0
  let (m, checksum) := ipChecksum m (nwm_buf + (0xE + 8)) 0x14
  let m := store16 m (nwm_buf + (0x18 + 8)) checksum
  let len := (len + 22) % 2 ^ 32
  (store16 m (nwm_buf + 12) (htons (len % 2 ^ 16)), len)

/-! ### Byte order -/

theorem wire16_lt (m : Mem) (a : ℕ) : wire16 m a < 2 ^ 16 := by
  have h1 := (m a).toNat_lt
  have h2 := (m (a + 1)).toNat_lt
  unfold wire16
  omega

theorem htons_load16 (m : Mem) (a : ℕ) : htons (load16 m a) = wire16 m a := by
  have h1 := (m a).toNat_lt
  have h2 := (m (a + 1)).toNat_lt
  unfold htons load16 wire16
  omega

theorem wire16_store16_htons (m : Mem) (a : ℕ) {v : ℕ} (hv : v < 2 ^ 16) :
    wire16 (store16 m a (htons v)) a = v := by
  have hhi : v / 2 ^ 8 % 2 ^ 8 = v / 2 ^ 8 := by omega
  have hlo : (v % 2 ^ 8 * 2 ^ 8 + v / 2 ^ 8) / 2 ^ 8 = v % 2 ^ 8 := by omega
  simp only [wire16, store16, htons, Function.update_self, UInt8.toNat_ofNat',
    Function.update_of_ne (show a ≠ a + 1 by omega), hhi, hlo]
  omega

theorem wire16_store16_zero (m : Mem) (a : ℕ) : wire16 (store16 m a 0) a = 0 := by
  have h := wire16_store16_htons m a (Nat.two_pow_pos 16)
  rwa [show htons 0 = 0 from rfl] at h

theorem wire16_store16_ne (m : Mem) {a b : ℕ} (h : b + 1 < a ∨ a + 1 < b) (v : ℕ) :
    wire16 (store16 m a v) b = wire16 m b := by
  unfold wire16 store16
  rw [Function.update_of_ne (by omega), Function.update_of_ne (by omega),
    Function.update_of_ne (by omega), Function.update_of_ne (by omega)]

theorem wireWords_lt (m : Mem) (a n : ℕ) : ∀ w ∈ wireWords m a n, w < 2 ^ 16 := by
  intro w hw
  obtain ⟨i, -, rfl⟩ := List.mem_map.mp hw
  exact wire16_lt m _

theorem wireWords_congr {m m' : Mem} {a b n : ℕ}
    (h : ∀ i < n, wire16 m (a + 2 * i) = wire16 m' (b + 2 * i)) :
    wireWords m a n = wireWords m' b n :=
  List.map_congr_left fun i hi => h i (List.mem_range.mp hi)

theorem wireWords_add (m : Mem) (a k n : ℕ) :
    wireWords m a (k + n) = wireWords m a k ++ wireWords m (a + 2 * k) n := by
  unfold wireWords
  rw [List.range_add, List.map_append, List.map_map]
  congr 1
  refine List.map_congr_left fun i _ => ?_
  rw [Function.comp_apply, Nat.mul_add, Nat.add_assoc]

/-! ### The checksum -/

theorem sum_wireWords_le (m : Mem) (a n : ℕ) : (wireWords m a n).sum ≤ n * (2 ^ 16 - 1) := by
  have h := List.sum_le_card_nsmul (wireWords m a n) (2 ^ 16 - 1) fun w hw => by
    have := wireWords_lt m a n w hw
    omega
  simpa [wireWords] using h

theorem foldl_acc {m : Mem} {a n : ℕ} (hn : n < 2 ^ 16) :
    (List.range n).foldl (fun acc i => (acc + htons (load16 m (a + 2 * i))) % 2 ^ 32) 0 =
      (wireWords m a n).sum := by
  induction n with
  | zero => rfl
  | succ n ih =>
    have hle := sum_wireWords_le m a (n + 1)
    have hsucc : (wireWords m a (n + 1)).sum = (wireWords m a n).sum + wire16 m (a + 2 * n) := by
      simp [wireWords, List.range_succ]
    rw [List.range_succ, List.foldl_append, ih (by omega), List.foldl_cons, List.foldl_nil,
      htons_load16, ← hsucc]
    exact Nat.mod_eq_of_lt (by omega)

/-- **`ip_checksum` is the checksum of the Internet protocol**: the complement of the one's
complement sum of the words of the wire, in the order of the wire. -/
theorem ipChecksum_eq (m : Mem) {data length : ℕ} (heven : length % 2 = 0) (hlt : length < 2 ^ 17) :
    ipChecksum m data length =
    (m, htons (2 ^ 16 - 1 - onesSum (wireWords m data (length / 2)))) := by
  have hn : length / 2 < 2 ^ 16 := by omega
  have hle := sum_wireWords_le m data (length / 2)
  have hsum : (wireWords m data (length / 2)).sum < 2 ^ 32 := by
    have : length / 2 * (2 ^ 16 - 1) ≤ (2 ^ 16 - 1) * (2 ^ 16 - 1) :=
      Nat.mul_le_mul_right _ (by omega)
    omega
  obtain ⟨hfit, hfold⟩ := low_fold_eq hsum
  simp only [ipChecksum, heven, ne_eq, not_true_eq_false, if_false, foldl_acc hn,
    onesSum_eq (wireWords_lt m data _)]
  rw [← hfold]
  generalize (wireWords m data (length / 2)).sum = x at hfit ⊢
  congr 2
  omega

/-- The odd byte is summed with a zero. -/
example : (ipChecksum (fun a => UInt8.ofNat (a + 1)) 0 3).2 =
    htons (2 ^ 16 - 1 - (0x0102 + 0x0300)) := by
  decide

/-! ### The headers -/

theorem initUdpPacket_eq (m : Mem) (nwm_buf dst_port : ℕ) {len : ℕ} (hlen : len ≤ PACKET_SIZE) :
    ∃ m', initUdpPacket m nwm_buf dst_port len =
        (store16 (store16 m' (nwm_buf + 32)
          (htons (2 ^ 16 - 1 - onesSum (wireWords m' (nwm_buf + 22) 10)))) (nwm_buf + 12)
          (htons (len + 50)), len + 50) ∧
      wire16 m' (nwm_buf + 24) = len + 28 ∧ wire16 m' (nwm_buf + 46) = len + 8 ∧
      wire16 m' (nwm_buf + 32) = 0 := by
  have hpacket : PACKET_SIZE = 1448 := rfl
  have h8 : (len + 8) % 2 ^ 32 = len + 8 := Nat.mod_eq_of_lt (by omega)
  have h28 : (len + 8 + 20) % 2 ^ 32 = len + 28 := Nat.mod_eq_of_lt (by omega)
  have h50 : (len + 28 + 22) % 2 ^ 32 = len + 50 := Nat.mod_eq_of_lt (by omega)
  have hwire8 : (len + 8) % 2 ^ 16 = len + 8 := Nat.mod_eq_of_lt (by omega)
  have hwire28 : (len + 28) % 2 ^ 16 = len + 28 := Nat.mod_eq_of_lt (by omega)
  have hwire50 : (len + 50) % 2 ^ 16 = len + 50 := Nat.mod_eq_of_lt (by omega)
  simp only [initUdpPacket, h8, h28, h50, hwire8, hwire28, hwire50,
    ipChecksum_eq _ (show 0x14 % 2 = 0 by decide) (show 0x14 < 2 ^ 17 by decide)]
  refine ⟨_, rfl, ?_, ?_, ?_⟩
  · iterate 4 rw [wire16_store16_ne _ (by omega)]
    exact wire16_store16_htons _ _ (by omega)
  · iterate 6 rw [wire16_store16_ne _ (by omega)]
    exact wire16_store16_htons _ _ (by omega)
  · exact wire16_store16_zero _ _

theorem onesSum_header {m m' : Mem} {a : ℕ} (h0 : wire16 m (a + 10) = 0)
    (hsum : wire16 m' (a + 10) = 2 ^ 16 - 1 - onesSum (wireWords m a 10))
    (hrest : ∀ i < 10, i ≠ 5 → wire16 m' (a + 2 * i) = wire16 m (a + 2 * i)) :
    onesSum (wireWords m' a 10) = 2 ^ 16 - 1 := by
  have hsplit : ∀ m : Mem, wireWords m a 10 =
      wireWords m a 5 ++ wire16 m (a + 10) :: wireWords m (a + 12) 4 := fun m => by
    rw [show 10 = 5 + (1 + 4) from rfl, wireWords_add, wireWords_add]
    rfl
  have hfirst : wireWords m' a 5 = wireWords m a 5 :=
    wireWords_congr fun i hi => hrest i (by omega) (by omega)
  have hlast : wireWords m' (a + 12) 4 = wireWords m (a + 12) 4 := wireWords_congr fun i hi => by
    have := hrest (6 + i) (by omega) (by omega)
    rwa [Nat.mul_add, ← Nat.add_assoc] at this
  rw [hsplit m', hsum, hfirst, hlast, hsplit m, h0]
  exact onesSum_complement (wireWords_lt _ _ _) (wireWords_lt _ _ _)

theorem initUdpPacket_spec (m : Mem) (nwm_buf dst_port : ℕ) {len : ℕ} (hlen : len ≤ PACKET_SIZE) :
    let out := initUdpPacket m nwm_buf dst_port len
    wire16 out.1 (nwm_buf + (0x10 + 8)) = len + 28 ∧ wire16 out.1 (nwm_buf + (0x26 + 8)) = len + 8 ∧
      out.2 = len + 50 ∧ onesSum (wireWords out.1 (nwm_buf + (0xE + 8)) 10) = 0xFFFF := by
  obtain ⟨m', hout, htotal, hudp, hzero⟩ := initUdpPacket_eq m nwm_buf dst_port hlen
  rw [hout]
  generalize hsum : 2 ^ 16 - 1 - onesSum (wireWords m' (nwm_buf + 22) 10) = sum
  have hlt : sum < 2 ^ 16 := by omega
  have hframe : ∀ {a v v'}, nwm_buf + 13 < a → (a + 1 < nwm_buf + 32 ∨ nwm_buf + 33 < a) →
      wire16 (store16 (store16 m' (nwm_buf + 32) v) (nwm_buf + 12) v') a = wire16 m' a := by
    intro a v v' h1 h2
    rw [wire16_store16_ne _ (by omega), wire16_store16_ne _ (by omega)]
  refine ⟨?_, ?_, rfl, onesSum_header (m := m') hzero ?_ fun i hi hne => ?_⟩
  · exact (hframe (by omega) (by omega)).trans htotal
  · exact (hframe (by omega) (by omega)).trans hudp
  · rw [wire16_store16_ne _ (by omega), hsum]
    exact wire16_store16_htons _ _ hlt
  · exact hframe (by omega) (by omega)

/-- **The headers are consistent and the IP header verifies**; over any data the checksum stored is
the complement of the one's complement sum of its words. -/
theorem headers_verify :
    (∀ (m : Mem) (nwm_buf dst_port len : ℕ), len ≤ PACKET_SIZE →
      let out := initUdpPacket m nwm_buf dst_port len
      wire16 out.1 (nwm_buf + (0x10 + 8)) = len + 28 ∧
      wire16 out.1 (nwm_buf + (0x26 + 8)) = len + 8 ∧
        out.2 = len + 50 ∧ onesSum (wireWords out.1 (nwm_buf + (0xE + 8)) 10) = 0xFFFF) ∧
    ∀ (m : Mem) (data length a : ℕ), length % 2 = 0 → length < 2 ^ 17 →
      (ipChecksum m data length).1 = m ∧ wire16 (store16 m a (ipChecksum m data length).2) a =
        2 ^ 16 - 1 - onesSum (wireWords m data (length / 2)) := by
  refine ⟨fun m nwm_buf dst_port len hlen => initUdpPacket_spec m nwm_buf dst_port hlen, ?_⟩
  intro m data length a heven hlt
  rw [ipChecksum_eq m heven hlt]
  exact ⟨rfl, wire16_store16_htons _ _ (by omega)⟩

/-- The longest packet. -/
theorem headers_verify_longest :
    wire16 (initUdpPacket (fun _ => 0x45) 0 8001 1448).1 24 = 1476 :=
  (headers_verify.1 (fun _ => 0x45) 0 8001 1448 le_rfl).1

end RemotePlay.Udp
