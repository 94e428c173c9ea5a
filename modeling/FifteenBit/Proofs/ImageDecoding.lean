import FifteenBit.Image
import FifteenBit.Machine.Basic
import FifteenBit.Proofs.Logged

/-! Images and their bytes. Decoding is the inverse of writing the words down, on exactly the texts
that some machine is booted from, and all that a machine keeps of an image is its words up to the
zeros at the end. -/

namespace FifteenBit

namespace Image

variable {s : List UInt8} {ws ws' : List Word}

theorem length_bytes (ws : List Word) : (bytes ws).length = 2 * ws.length := by
  induction ws with
  | nil => rfl
  | cons w ws ih =>
    simp only [bytes, Word.bytes, List.flatMap_cons, List.length_append, List.length_cons,
      List.length_nil] at ih ⊢
    omega

theorem bytes_append (ws ws' : List Word) : bytes (ws ++ ws') = bytes ws ++ bytes ws' :=
  List.flatMap_append

theorem bytes_zeros (k : Nat) : bytes (List.replicate k 0) = List.replicate (2 * k) 0 := by
  induction k with
  | zero => rfl
  | succ k ih =>
    simp only [bytes] at ih
    simp [bytes, List.replicate_succ, Nat.mul_succ, ih, Word.bytes]

theorem bytes_injective (h : bytes ws = bytes ws') : ws = ws' := by
  rw [← pairs_bytes ws, h, pairs_bytes]

theorem bytes_pairs (h : s.length % 2 = 0) : bytes (pairs s) = s := by
  induction s using pairs.induct with
  | case1 low high rest ih =>
    have hrest : bytes (pairs rest) = rest := by
      apply ih
      simp only [List.length_cons] at h
      omega
    simp only [bytes] at hrest
    simp [pairs, bytes, Word.bytes_ofBytes, hrest]
  | case2 s hs =>
    cases s with
    | nil => rfl
    | cons low t =>
      cases t with
      | nil => simp at h
      | cons high rest => exact absurd rfl (hs low high rest)

/-- Decoding gives the words of at most a full memory that are written so, and no others. -/
theorem decode_eq_ok : decode s = .ok ws ↔ bytes ws = s ∧ ws.length ≤ memorySize := by
  constructor
  · intro h
    unfold decode at h
    split at h
    · cases h
    · split at h
      · cases h
      · rename_i hodd hlarge
        have heven := bytes_pairs (Decidable.not_not.1 hodd)
        cases h
        have hlength := length_bytes (pairs s)
        rw [heven] at hlength
        exact ⟨heven, by omega⟩
  · rintro ⟨rfl, hw⟩
    have hlength := length_bytes ws
    rw [decode, if_neg (by omega), if_neg (by omega), pairs_bytes]

theorem decode_of_odd (h : s.length % 2 ≠ 0) : decode s = .error (.oddLength s.length) := by
  rw [decode, if_pos h]

theorem decode_of_large (h : s.length % 2 = 0) (hs : 65536 < s.length) :
    decode s = .error (.tooLarge (s.length / 2)) := by
  have hsize : memorySize = 32768 := rfl
  rw [decode, if_neg (Decidable.not_not.2 h), if_pos (by omega)]

theorem exists_decode_iff :
    (∃ ws, decode s = .ok ws) ↔ s.length % 2 = 0 ∧ s.length ≤ 65536 := by
  have hsize : memorySize = 32768 := rfl
  constructor
  · rintro ⟨ws, h⟩
    obtain ⟨rfl, hw⟩ := decode_eq_ok.1 h
    have hlength := length_bytes ws
    omega
  · rintro ⟨heven, hs⟩
    have hbytes := bytes_pairs heven
    have hlength := length_bytes (pairs s)
    rw [hbytes] at hlength
    exact ⟨pairs s, decode_eq_ok.2 ⟨hbytes, by omega⟩⟩

end Image

section Zeros

variable {n : Nat} {ws ws' : List Word}

def zeroPadded (n : Nat) (ws : List Word) : List Word :=
  ws ++ List.replicate (n - ws.length) 0

theorem zeroPadded_append_zeros {k : Nat} (h : (ws ++ List.replicate k 0).length ≤ n) :
    zeroPadded n (ws ++ List.replicate k 0) = zeroPadded n ws := by
  simp only [List.length_append, List.length_replicate] at h
  have hk : n - ws.length = k + (n - (ws.length + k)) := by omega
  simp only [zeroPadded, List.length_append, List.length_replicate, List.append_assoc,
    List.replicate_append_replicate, hk]

theorem eq_append_zeros (hl : ws.length ≤ ws'.length) (h : ws'.length ≤ n)
    (hp : zeroPadded n ws = zeroPadded n ws') :
    ws' = ws ++ List.replicate (ws'.length - ws.length) 0 := by
  have htake := congrArg (List.take ws'.length) hp
  have hmin : min (ws'.length - ws.length) (n - ws.length) = ws'.length - ws.length := by omega
  simpa [zeroPadded, List.take_append, List.take_of_length_le hl, hmin] using htake.symm

/-- Padding forgets just the zeros at the end. -/
theorem zeroPadded_eq_iff (h : ws.length ≤ n) (h' : ws'.length ≤ n) :
    zeroPadded n ws = zeroPadded n ws' ↔
      ∃ k, ws' = ws ++ List.replicate k 0 ∨ ws = ws' ++ List.replicate k 0 := by
  constructor
  · intro hp
    rcases Nat.le_total ws.length ws'.length with hl | hl
    · exact ⟨_, .inl (eq_append_zeros hl h' hp)⟩
    · exact ⟨_, .inr (eq_append_zeros hl h hp.symm)⟩
  · rintro ⟨k, rfl | rfl⟩
    · exact (zeroPadded_append_zeros h').symm
    · exact zeroPadded_append_zeros h

end Zeros

namespace Machine

variable {ws ws' : List Word} {policy : Policy} {m m' : Machine}

theorem boot_result (h : ws.length ≤ memorySize) (policy : Policy) : (boot ws policy).result =
    .ok ⟨Memory.ofImage ws h, RegisterFile.zero, [], 0, [], true, policy⟩ := by
  rw [boot, dif_pos h]
  rfl

theorem toList_ofImage (h : ws.length ≤ memorySize) :
    (Memory.ofImage ws h).toList = zeroPadded memorySize ws := by
  simp [Memory.ofImage, zeroPadded]

/-- Machines that are booted alike differ in nothing but their memory. -/
theorem boot_eq_iff (h : ws.length ≤ memorySize) (h' : ws'.length ≤ memorySize)
    (hm : (boot ws policy).result = .ok m) (hm' : (boot ws' policy).result = .ok m') :
    m = m' ↔ zeroPadded memorySize ws = zeroPadded memorySize ws' := by
  rw [boot_result h] at hm
  rw [boot_result h'] at hm'
  cases hm
  cases hm'
  rw [← toList_ofImage h, ← toList_ofImage h', Vector.toList_inj]
  constructor
  · intro he
    exact congrArg Machine.memory he
  · intro he
    rw [he]

end Machine

namespace Image

/-- Bytes are decoded if and only if they come in pairs and are not too many. What is decoded says
what they were, and boots; the machine does not know how many words at the end were zero. -/
theorem decoding_exact (s : List UInt8) :
    ((∃ ws, decode s = .ok ws) ↔ s.length % 2 = 0 ∧ s.length ≤ 65536) ∧
    (s.length % 2 ≠ 0 → decode s = .error (.oddLength s.length)) ∧
    (s.length % 2 = 0 → 65536 < s.length → decode s = .error (.tooLarge (s.length / 2))) ∧
    (∀ ws : List Word, ws.length ≤ 32768 → decode (bytes ws) = .ok ws) ∧
    ∀ ws, decode s = .ok ws → bytes ws = s ∧ ∀ policy, ∃ m,
      (Machine.boot ws policy).result = .ok m ∧
      m.memory.toList = ws ++ List.replicate (32768 - ws.length) 0 ∧
      ∀ s' ws' m', decode s' = .ok ws' → (Machine.boot ws' policy).result = .ok m' →
        (m = m' ↔ ∃ k, s' = s ++ List.replicate (2 * k) 0 ∨
          s = s' ++ List.replicate (2 * k) 0) := by
  refine ⟨exists_decode_iff, decode_of_odd, decode_of_large, ?_, ?_⟩
  · intro ws hw
    exact decode_eq_ok.2 ⟨rfl, hw⟩
  · intro ws h
    obtain ⟨rfl, hw⟩ := decode_eq_ok.1 h
    refine ⟨rfl, fun policy => ⟨_, Machine.boot_result hw policy, Machine.toList_ofImage hw, ?_⟩⟩
    intro s' ws' m' h' hm'
    obtain ⟨rfl, hw'⟩ := decode_eq_ok.1 h'
    have hbytes (k : Nat) (a b : List Word) :
        bytes a = bytes b ++ List.replicate (2 * k) 0 ↔ a = b ++ List.replicate k 0 := by
      rw [← bytes_zeros, ← bytes_append]
      exact ⟨bytes_injective, congrArg bytes⟩
    simp only [Machine.boot_eq_iff hw hw' (Machine.boot_result hw policy) hm',
      zeroPadded_eq_iff hw hw', hbytes]

theorem decoding_exact_zero_word :
    decode [0x13] = .error (.oddLength 1) ∧
      decode (List.replicate 65538 0) = .error (.tooLarge 32769) ∧
      ∃ m, decode [0x13, 0x00, 0x01, 0x80] = .ok [19, 32769] ∧
        decode [0x13, 0x00, 0x01, 0x80, 0x00, 0x00] = .ok [19, 32769, 0] ∧
        (Machine.boot [19, 32769] .strict).result = .ok m ∧
        (Machine.boot [19, 32769, 0] .strict).result = .ok m := by
  have hodd := (decoding_exact [0x13]).2.1 (by decide)
  have hlarge := (decoding_exact (List.replicate 65538 0)).2.2.1
  rw [List.length_replicate] at hlarge
  refine ⟨hodd, hlarge rfl (by decide), ?_⟩
  have hd : decode [0x13, 0x00, 0x01, 0x80] = .ok [19, 32769] := rfl
  have hd' : decode [0x13, 0x00, 0x01, 0x80, 0x00, 0x00] = .ok [19, 32769, 0] := rfl
  obtain ⟨m, hm, -, heq⟩ := ((decoding_exact _).2.2.2.2 _ hd).2 .strict
  obtain ⟨m', hm', -⟩ := ((decoding_exact _).2.2.2.2 _ hd').2 .strict
  have he : m = m' := (heq _ _ _ hd' hm').2 ⟨1, .inl rfl⟩
  exact ⟨m, hd, hd', hm, he ▸ hm'⟩

end Image

end FifteenBit
