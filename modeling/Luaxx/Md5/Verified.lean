import Luaxx.Md5.Rfc1321
import Luaxx.Md5.Checksum
import Mathlib.Tactic.IntervalCases

/-!
# What `os.checksum` computes

`digest` is the compression function of the RFC (`digest_eq`), and `md5_update` absorbs its
message followed by `closing` (`md5_update_eq`): the padding of the RFC when the message does not
end on a block boundary, nothing when it does. The length field of that padding has 35 bits
instead of 64.
-/

namespace Luaxx.Checksum

open Luaxx.Blocks Luaxx.LittleEndian Luaxx.Rfc1321

/-- The four words of `d` as the buffer of the RFC. -/
def Digest.toBuffer (d : Digest) : Buffer := ⟨d.d0, d.d1, d.d2, d.d3⟩

@[simp] theorem toBuffer_inj {d e : Digest} : d.toBuffer = e.toBuffer ↔ d = e := by
  cases d; cases e; simp [Digest.toBuffer]

@[simp] theorem toBuffer_addOld (d e : Digest) :
    (addOld d e).toBuffer = addSaved d.toBuffer e.toBuffer := rfl

/-! ## `digest` is the four rounds -/

/-- The RFC adds `b` on the left. -/
theorem rotate_add (x s b : UInt32) : rotate x s + b = b + rotl x s := UInt32.add_comm _ _

/-- The operations of one iteration of the four loops of `digest`. -/
def ops1 (j : Nat) : List Op :=
  [⟨j, 7, T.getD j 0⟩, ⟨j + 1, 12, T.getD (j + 1) 0⟩, ⟨j + 2, 17, T.getD (j + 2) 0⟩,
   ⟨j + 3, 22, T.getD (j + 3) 0⟩]

def ops2 (j : Nat) : List Op :=
  [⟨(5 * j + 1) &&& 0x0f, 5, T.getD (j + 16) 0⟩, ⟨(5 * (j + 1) + 1) &&& 0x0f, 9, T.getD (j + 17) 0⟩,
   ⟨(5 * (j + 2) + 1) &&& 0x0f, 14, T.getD (j + 1 + 17) 0⟩,
   ⟨(5 * (j + 3) + 1) &&& 0x0f, 20, T.getD (j + 2 + 17) 0⟩]

def ops3 (j : Nat) : List Op :=
  [⟨(3 * j + 5) &&& 0x0f, 4, T.getD (j + 32) 0⟩, ⟨(3 * (j + 1) + 5) &&& 0x0f, 11, T.getD (j + 33) 0⟩,
   ⟨(3 * (j + 2) + 5) &&& 0x0f, 16, T.getD (j + 1 + 33) 0⟩,
   ⟨(3 * (j + 3) + 5) &&& 0x0f, 23, T.getD (j + 2 + 33) 0⟩]

def ops4 (j : Nat) : List Op :=
  [⟨(7 * j) &&& 0x0f, 6, T.getD (j + 48) 0⟩, ⟨(7 * (j + 1)) &&& 0x0f, 10, T.getD (j + 49) 0⟩,
   ⟨(7 * (j + 2)) &&& 0x0f, 15, T.getD (j + 1 + 49) 0⟩,
   ⟨(7 * (j + 3)) &&& 0x0f, 21, T.getD (j + 2 + 49) 0⟩]

/-- After four operations every word is back under its own name. -/
theorem toBuffer_eq_ops (f : UInt32 → UInt32 → UInt32 → UInt32) (m : List UInt32) (d : Digest)
    (o0 o1 o2 o3 : Op) (d0 d1 d2 d3 : UInt32)
    (h0 : d0 = rotate (d.d0 + f d.d1 d.d2 d.d3 + m.getD o0.k 0 + o0.t) o0.s + d.d1)
    (h3 : d3 = rotate (d.d3 + f d0 d.d1 d.d2 + m.getD o1.k 0 + o1.t) o1.s + d0)
    (h2 : d2 = rotate (d.d2 + f d3 d0 d.d1 + m.getD o2.k 0 + o2.t) o2.s + d3)
    (h1 : d1 = rotate (d.d1 + f d2 d3 d0 + m.getD o3.k 0 + o3.t) o3.s + d2) :
    (Digest.mk d0 d1 d2 d3).toBuffer = [o0, o1, o2, o3].foldl (operate f m) d.toBuffer := by
  simp only [List.foldl, operate, Digest.toBuffer, ← rotate_add]
  rw [← h0, ← h3, ← h2, ← h1]

theorem passo1_eq (m : List WORD32) (d : Digest) (j : Nat) :
    (passo1 m d j).toBuffer = (ops1 j).foldl (operate auxF m) d.toBuffer :=
  toBuffer_eq_ops auxF m d _ _ _ _ _ _ _ _ rfl rfl rfl rfl

theorem passo2_eq (m : List WORD32) (d : Digest) (j : Nat) :
    (passo2 m d j).toBuffer = (ops2 j).foldl (operate auxG m) d.toBuffer :=
  toBuffer_eq_ops auxG m d _ _ _ _ _ _ _ _ rfl rfl rfl rfl

theorem passo3_eq (m : List WORD32) (d : Digest) (j : Nat) :
    (passo3 m d j).toBuffer = (ops3 j).foldl (operate auxH m) d.toBuffer :=
  toBuffer_eq_ops auxH m d _ _ _ _ _ _ _ _ rfl rfl rfl rfl

theorem passo4_eq (m : List WORD32) (d : Digest) (j : Nat) :
    (passo4 m d j).toBuffer = (ops4 j).foldl (operate auxI m) d.toBuffer :=
  toBuffer_eq_ops auxI m d _ _ _ _ _ _ _ _ rfl rfl rfl rfl

/-- A loop over `j` whose iterations are operations runs their concatenation. -/
theorem foldl_ops {p : Digest → Nat → Digest} {ops : Nat → List Op}
    {f : UInt32 → UInt32 → UInt32 → UInt32} {m : List UInt32}
    (h : ∀ d j, (p d j).toBuffer = (ops j).foldl (operate f m) d.toBuffer) (js : List Nat)
    (d : Digest) :
    (js.foldl p d).toBuffer = (js.flatMap ops).foldl (operate f m) d.toBuffer := by
  induction js generalizing d with
  | nil => rfl
  | cons j js ih => rw [List.foldl_cons, ih, h, List.flatMap_cons, List.foldl_append]

theorem digest_eq (m : List WORD32) (d : Digest) :
    (digest m d).toBuffer = rounds m d.toBuffer := by
  have h1 : [0, 4, 8, 12].flatMap ops1 = round1 := rfl
  have h2 : [0, 4, 8, 12].flatMap ops2 = round2 := rfl
  have h3 : [0, 4, 8, 12].flatMap ops3 = round3 := rfl
  have h4 : [0, 4, 8, 12].flatMap ops4 = round4 := rfl
  unfold digest rounds
  simp only [foldl_ops (passo1_eq m), foldl_ops (passo2_eq m), foldl_ops (passo3_eq m),
    foldl_ops (passo4_eq m), h1, h2, h3, h4]

/-! ## Bytes and words -/

theorem UInt32.or_shift_eq (hi : UInt32) (lo : UInt8) (h : hi.toNat < 2 ^ 24) :
    (hi <<< 8 ||| lo.toUInt32).toNat = lo.toNat + 256 * hi.toNat := by
  have hlo : lo.toNat < 2 ^ 8 := lo.toNat_lt
  have hs : (hi <<< 8).toNat = hi.toNat <<< 8 := by
    rw [UInt32.toNat_shiftLeft]
    have : hi.toNat <<< 8 < 2 ^ 32 := by rw [Nat.shiftLeft_eq]; omega
    exact Nat.mod_eq_of_lt this
  rw [UInt32.toNat_or, hs, UInt8.toNat_toUInt32, ← Nat.shiftLeft_add_eq_or_of_lt hlo,
    Nat.shiftLeft_eq]
  omega

/-- The shifts of `bytestoword32` make the word of four bytes. -/
theorem shifts_eq_word (b0 b1 b2 b3 : UInt8) :
    ((b3.toUInt32 <<< 8 ||| b2.toUInt32) <<< 8 ||| b1.toUInt32) <<< 8 ||| b0.toUInt32 =
      UInt32.ofNat (b0.toNat + 256 * b1.toNat + 65536 * b2.toNat + 16777216 * b3.toNat) := by
  have h0 := b0.toNat_lt
  have h1 := b1.toNat_lt
  have h2 := b2.toNat_lt
  have h3 := b3.toNat_lt
  have e3 : b3.toUInt32.toNat = b3.toNat := UInt8.toNat_toUInt32 b3
  have e2 := UInt32.or_shift_eq b3.toUInt32 b2 (by omega)
  have e1 := UInt32.or_shift_eq (b3.toUInt32 <<< 8 ||| b2.toUInt32) b1 (by omega)
  have e0 := UInt32.or_shift_eq ((b3.toUInt32 <<< 8 ||| b2.toUInt32) <<< 8 ||| b1.toUInt32) b0
    (by omega)
  apply UInt32.toNat_inj.mp
  rw [e0, e1, e2, e3, UInt32.toNat_ofNat']
  omega

theorem bytestoword32_eq (pt : List UInt8) : bytestoword32 pt = words pt := by
  unfold bytestoword32 words
  apply List.map_congr_left
  intro i _
  simp only [shifts_eq_word, word, List.getD_eq_getElem?_getD, List.getElem?_drop]
  simp only [Nat.mul_comm i 4, Nat.add_zero]

/-- Four bytes of a word read back. -/
theorem word_bytesLE (n : Nat) (r : List UInt8) : word (bytesLE 4 n ++ r) = UInt32.ofNat n := by
  apply UInt32.toNat_inj.mp
  simp only [word, bytesLE, List.cons_append, List.getD_cons_zero, List.getD_cons_succ,
    UInt8.toNat_ofNat', UInt32.toNat_ofNat']
  omega

theorem word32tobytes_eq (d : Digest) : word32tobytes d = output d.toBuffer := by
  have h : ∀ v : UInt32, wordtobytes v = bytesLE 4 v.toNat := by
    intro v
    have hand : ∀ x : Nat, x &&& 255 = x % 256 := fun x => Nat.and_two_pow_sub_one_eq_mod x 8
    simp only [wordtobytes, bytesLE, List.cons.injEq, and_true]
    refine ⟨?_, ?_, ?_, ?_⟩ <;> apply UInt8.toNat_inj.mp <;>
      simp [Nat.shiftRight_eq_div_pow, hand, Nat.div_div_eq_div_mul]
  simp only [word32tobytes, output, h, Digest.toBuffer]

/-! ## The length field -/

/-- The last eight bytes of the padding as `put_length` makes them: the length in bits, cut to 35
bits. -/
def lengthField (n : Nat) : List UInt8 := bytesLE 4 (8 * n) ++ bytesLE 4 (n / 2 ^ 29 % 8)

@[simp] theorem length_lengthField (n : Nat) : (lengthField n).length = 8 := by simp [lengthField]

theorem getLsbD_seven : ∀ i : Fin 64, ¬ i.1 < 3 → (7#64).getLsbD i = false := by decide

/-- An arithmetic shift by 29 brings no sign bit into the low three bits. -/
theorem sshiftRight_and_seven (x : BitVec 64) : x.sshiftRight 29 &&& 7#64 = x >>> 29 &&& 7#64 := by
  apply BitVec.eq_of_getLsbD_eq
  intro i hi
  rw [BitVec.getLsbD_and, BitVec.getLsbD_and]
  by_cases h : i < 3
  · simp [BitVec.getLsbD_sshiftRight, show 29 + i < 64 by omega, show ¬ 64 ≤ i by omega]
  · simp [getLsbD_seven ⟨i, hi⟩ h]

theorem put_length_lo (len : UInt64) :
    ((len <<< 3) &&& 0xFFFFFFFF).toUInt32 = UInt32.ofNat (8 * len.toNat) := by
  have hand : ∀ x : Nat, x &&& 4294967295 = x % 2 ^ 32 :=
    fun x => Nat.and_two_pow_sub_one_eq_mod x 32
  apply UInt32.toNat_inj.mp
  simp [hand, Nat.shiftLeft_eq]
  omega

theorem put_length_hi (len : UInt64) :
    ((len.toInt64 >>> 29) &&& 7).toUInt64.toUInt32 = UInt32.ofNat (len.toNat / 2 ^ 29 % 8) := by
  have hb : ((len.toInt64 >>> 29) &&& 7).toUInt64.toBitVec = len.toBitVec >>> 29 &&& 7#64 := by
    rw [← sshiftRight_and_seven]
    rfl
  have hand : ∀ x : Nat, x &&& 7 = x % 8 := fun x => Nat.and_two_pow_sub_one_eq_mod x 3
  have hn : ((len.toInt64 >>> 29) &&& 7).toUInt64.toNat = len.toNat / 2 ^ 29 % 8 := by
    rw [← UInt64.toNat_toBitVec, hb, BitVec.toNat_and, BitVec.toNat_ushiftRight,
      Nat.shiftRight_eq_div_pow]
    exact hand _
  apply UInt32.toNat_inj.mp
  rw [UInt64.toNat_toUInt32, hn, UInt32.toNat_ofNat']

theorem word_append (l r : List UInt8) (h : 4 ≤ l.length) : word (l ++ r) = word l := by
  match l, h with
  | _ :: _ :: _ :: _ :: _, _ => rfl

/-- A block is its first sixty-four bytes. -/
theorem words_append (l r : List UInt8) (h : 64 ≤ l.length) : words (l ++ r) = words l := by
  apply List.map_congr_left
  intro i hi
  rw [List.mem_range] at hi
  rw [List.drop_append_of_le_length (by omega), word_append _ _ (by simp; omega)]

theorem words_take (l : List UInt8) (h : 64 ≤ l.length) : words (l.take 64) = words l := by
  conv_rhs => rw [← List.take_append_drop 64 l]
  rw [words_append _ _ (by simp; omega)]

/-- `put_length` writes the length field into the two words left free for it. -/
theorem put_length_words (p : List UInt8) (len : UInt64) (hp : p.length = 56) :
    put_length (words (p ++ List.replicate 8 0)) len = words (p ++ lengthField len.toNat) := by
  have hget : ∀ q : List UInt8, ∀ i < 14, word ((p ++ q).drop (4 * i)) = word (p.drop (4 * i)) := by
    intro q i hi
    rw [List.drop_append_of_le_length (by omega), word_append _ _ (by simp; omega)]
  have h14 : (p ++ lengthField len.toNat).drop 56 = lengthField len.toNat := by
    rw [← hp, List.drop_left]
  have h15 : (p ++ lengthField len.toNat).drop 60 = bytesLE 4 (len.toNat / 2 ^ 29 % 8) := by
    rw [show 60 = 56 + 4 from rfl, ← List.drop_drop, h14]
    rfl
  apply List.ext_getElem (by simp [put_length])
  intro i hi _
  have hi16 : i < 16 := by simpa [put_length] using hi
  simp only [put_length, put_length_lo, put_length_hi, words, List.getElem_set, List.getElem_map,
    List.getElem_range]
  split_ifs with h1 h2
  · subst h1
    have := word_bytesLE (len.toNat / 2 ^ 29 % 8) []
    rw [List.append_nil] at this
    rw [h15, this]
  · subst h2
    rw [h14, lengthField, word_bytesLE]
  · rw [hget _ i (by omega), hget _ i (by omega)]

/-! ## The loop of `md5_update` -/

/-- What `md5_update` absorbs after a message of `len` bytes that ends at `total`: nothing after
whole blocks, else the padding. -/
def closing (len total : Nat) : List UInt8 :=
  if len ≠ 0 ∧ 64 ∣ len then [] else paddingBits len ++ lengthField total

/-- One block through `digest` and the addition of the old values. -/
theorem toBuffer_block (block : List UInt8) (d : Digest) :
    (addOld (digest (words block) d) d).toBuffer = compress d.toBuffer block := by
  rw [toBuffer_addOld, digest_eq]
  rfl

theorem converte_whole (pt : List UInt8) (status : Nat) :
    converte pt 64 status = (words pt, 0) := by
  simp [converte, bytestoword32_eq]

/-- The message ends in this block: `0x80` follows it. -/
theorem converte_last (pt : List UInt8) (h : pt.length < 64) :
    converte pt pt.length 0 =
      (words (pt ++ 0x80 :: List.replicate (63 - pt.length) 0), if pt.length ≤ 55 then 2 else 1) := by
  have hset : (pt ++ List.replicate (64 - pt.length) 0).set pt.length 0x80 =
      pt ++ 0x80 :: List.replicate (63 - pt.length) 0 := by
    rw [List.set_append_right _ _ (Nat.le_refl _), Nat.sub_self,
      show 64 - pt.length = (63 - pt.length) + 1 by omega, List.replicate_succ, List.set_cons_zero]
  simp only [converte, if_pos h, List.take_length, hset, bytestoword32_eq, if_true]

/-- The message ended in the block before, with no room for the length. -/
theorem converte_rest (pt : List UInt8) :
    converte pt 0 1 = (words (List.replicate 56 0 ++ List.replicate 8 0), 2) := by
  simp only [converte, bytestoword32_eq]
  rfl

theorem updateLoop_two (message : List UInt8) (addlen : UInt64) (d : Digest) (i : Nat) :
    updateLoop message addlen d 2 i = (d, 2) := by
  rw [updateLoop, if_pos rfl]

/-- One iteration that neither ends the loop nor breaks it. -/
theorem updateLoop_step {message : List UInt8} {addlen : UInt64} {d : Digest}
    {status i numbytes status' : Nat} {w : List WORD32} (h2 : status ≠ 2)
    (hnum : (if message.length - i ≥ 64 then 64 else message.length - i) = numbytes)
    (hgo : ¬ (status ≠ 1 ∧ numbytes = 0 ∧ message.length ≠ 0))
    (hc : converte (message.drop i) numbytes status = (w, status')) :
    updateLoop message addlen d status i =
      updateLoop message addlen
        (addOld (digest (if status' = 2
          then put_length w (addlen + UInt64.ofNat message.length) else w) d) d)
        status' (i + numbytes) := by
  rw [updateLoop, if_neg h2]
  simp only [hnum, if_neg hgo, hc]

/-- The iteration on the second of two closing blocks. -/
theorem updateLoop_one (message : List UInt8) (addlen : UInt64) (d : Digest) :
    updateLoop message addlen d 1 message.length =
      (addOld (digest (words (List.replicate 56 0 ++
        lengthField (addlen + UInt64.ofNat message.length).toNat)) d) d, 2) := by
  have hnum : (if message.length - message.length ≥ 64 then 64
      else message.length - message.length) = 0 := by simp
  rw [updateLoop_step (by decide) hnum (by simp) (converte_rest _), if_pos rfl, updateLoop_two,
    put_length_words _ _ (List.length_replicate)]

/-- The iterations at the end of the message, on its last `message.length % 64` bytes. -/
theorem updateLoop_last (message : List UInt8) (addlen : UInt64) (d : Digest) (i : Nat)
    (hdvd : 64 ∣ i) (hi : i ≤ message.length) (hr : message.length - i < 64)
    (hne : ¬ (message.length ≠ 0 ∧ 64 ∣ message.length)) :
    (updateLoop message addlen d 0 i).1.toBuffer =
        absorbAll 64 compress d.toBuffer (message.drop i ++ paddingBits message.length ++
          lengthField (addlen + UInt64.ofNat message.length).toNat) ∧
      (updateLoop message addlen d 0 i).2 = 2 := by
  obtain ⟨r, hrest⟩ : ∃ r, r = message.drop i := ⟨_, rfl⟩
  have hlen : r.length = message.length - i := by rw [hrest, List.length_drop]
  have hmod : message.length % 64 = r.length := by
    obtain ⟨k, rfl⟩ := hdvd
    omega
  have hnum : (if message.length - i ≥ 64 then 64 else message.length - i) = r.length := by
    rw [if_neg (by omega), hlen]
  have hgo : ¬ ((0 : Nat) ≠ 1 ∧ r.length = 0 ∧ message.length ≠ 0) := by
    rintro ⟨-, h0, hm⟩
    exact hne ⟨hm, Nat.dvd_of_mod_eq_zero (hmod.trans h0)⟩
  have hend : i + r.length = message.length := by omega
  have hconv := converte_last r (by omega)
  conv at hconv => lhs; arg 1; rw [hrest]
  rw [updateLoop_step (by decide) hnum hgo hconv, hend]
  by_cases h55 : r.length ≤ 55
  · -- the padding and the length fit in this block
    have hzeros : r ++ 0x80 :: List.replicate (63 - r.length) 0 =
        (r ++ 0x80 :: List.replicate (55 - r.length) 0) ++ List.replicate 8 0 := by
      rw [show 63 - r.length = (55 - r.length) + 8 by omega, List.replicate_add]
      simp
    have hpad : paddingBits message.length = 0x80 :: List.replicate (55 - r.length) 0 := by
      rw [paddingBits, hmod, show (119 - r.length) % 64 = 55 - r.length by omega]
    rw [if_pos h55, if_pos rfl, updateLoop_two, hzeros, put_length_words _ _ (by simp; omega), toBuffer_block, ← hrest,
      hpad, absorbAll_block _ (by decide) _ _ (by simp; omega)]
    exact ⟨rfl, rfl⟩
  · -- the length goes into a block of its own
    have hpad : paddingBits message.length =
        (0x80 :: List.replicate (63 - r.length) 0) ++ List.replicate 56 0 := by
      rw [paddingBits, hmod, show (119 - r.length) % 64 = (63 - r.length) + 56 by omega,
        List.replicate_add]
      rfl
    have hblock : (r ++ 0x80 :: List.replicate (63 - r.length) 0).length = 64 := by
      rw [List.length_append, List.length_cons, List.length_replicate]
      omega
    rw [if_neg h55, if_neg (by decide), updateLoop_one, toBuffer_block, toBuffer_block, ← hrest, hpad, ← List.append_assoc,
      List.append_assoc _ (List.replicate 56 0),
      absorbAll_append _ (by decide) _ _ _ (by rw [hblock]),
      absorbAll_block _ (by decide) _ _ hblock, absorbAll_block _ (by decide) _ _ (by simp)]
    exact ⟨rfl, rfl⟩

/-- From any block boundary on, the loop absorbs the rest of the message and `closing`. -/
theorem updateLoop_eq (message : List UInt8) (addlen : UInt64) (d : Digest) (i : Nat)
    (hdvd : 64 ∣ i) (hi : i ≤ message.length) :
    (updateLoop message addlen d 0 i).1.toBuffer =
        absorbAll 64 compress d.toBuffer (message.drop i ++
          closing message.length (addlen + UInt64.ofNat message.length).toNat) ∧
      (updateLoop message addlen d 0 i).2 =
        if message.length ≠ 0 ∧ 64 ∣ message.length then 0 else 2 := by
  induction hn : message.length - i using Nat.strongRecOn generalizing d i with
  | ind n ih =>
    by_cases hr : 64 ≤ message.length - i
    · -- a whole block
      obtain ⟨h1, h2⟩ := ih (message.length - (i + 64)) (by omega)
        (addOld (digest (words (message.drop i)) d) d) (i + 64)
        (Nat.dvd_add hdvd (Nat.dvd_refl 64)) (by omega) rfl
      have hlen : 64 ≤ (message.drop i).length := by rw [List.length_drop]; exact hr
      have htake : ((message.drop i).take 64).length = 64 := by rw [List.length_take]; omega
      rw [updateLoop_step (by decide) (if_pos hr) (by simp) (converte_whole _ _),
        if_neg (by decide), h2, h1, ← words_take _ hlen, toBuffer_block]
      refine ⟨?_, rfl⟩
      have hsplit : ∀ c, message.drop i ++ c =
          (message.drop i).take 64 ++ (message.drop (i + 64) ++ c) := by
        intro c
        rw [← List.append_assoc, ← List.drop_drop, List.take_append_drop]
      rw [hsplit, absorbAll_append _ (by decide) _ ((message.drop i).take 64) _ (by rw [htake]),
        absorbAll_block _ (by decide) _ _ htake]
    · by_cases hwhole : message.length ≠ 0 ∧ 64 ∣ message.length
      · -- the `break`
        have hend : message.length - i = 0 := by omega
        have hstep : updateLoop message addlen d 0 i = (d, 0) := by
          rw [updateLoop]
          simp [hend, List.length_eq_zero_iff.not.mp hwhole.1]
        have hdrop : message.drop i = [] := List.drop_eq_nil_of_le (by omega)
        rw [hstep, hdrop, closing, if_pos hwhole, if_pos hwhole, List.append_nil,
          absorbAll_of_lt _ _ _ (by decide)]
        exact ⟨rfl, rfl⟩
      · obtain ⟨h1, h2⟩ := updateLoop_last message addlen d i hdvd hi (by omega) hwhole
        rw [h1, h2, closing, if_neg hwhole, if_neg hwhole, ← List.append_assoc]
        exact ⟨rfl, rfl⟩

/-- `md5_update` absorbs its message and then what closes it. -/
theorem md5_update_eq (m : Md5T) (message : List UInt8) :
    (md5_update m message).1.d.toBuffer = absorbAll 64 compress m.d.toBuffer
      (message ++ closing message.length (m.len + UInt64.ofNat message.length).toNat) ∧
    (md5_update m message).2 = !decide (message.length ≠ 0 ∧ 64 ∣ message.length) := by
  obtain ⟨h1, h2⟩ := updateLoop_eq message m.len m.d 0 (Nat.dvd_zero 64) (Nat.zero_le _)
  refine ⟨h1, ?_⟩
  unfold md5_update
  simp only [h2]
  by_cases h : message.length ≠ 0 ∧ 64 ∣ message.length
  · rw [if_pos h, decide_eq_true h]
    rfl
  · rw [if_neg h, decide_eq_false h]
    rfl

/-! ## Messages in two pieces -/

/-- Whole blocks before a message that is not empty do not change what closes it. -/
theorem closing_add {a b : Nat} (ha : 64 ∣ a) (hb : b ≠ 0) (total : Nat) :
    closing (a + b) total = closing b total := by
  have hdvd : 64 ∣ a + b ↔ 64 ∣ b := Nat.dvd_add_right ha
  have hbits : paddingBits (a + b) = paddingBits b := by
    rw [paddingBits, paddingBits, Nat.add_mod, Nat.mod_eq_zero_of_dvd ha, Nat.zero_add, Nat.mod_mod]
  have hne : a + b ≠ 0 := by omega
  rw [closing, closing, hbits]
  simp only [hdvd, hb, hne, ne_eq, not_false_eq_true, true_and]

theorem Md5T.eq_of {m m' : Md5T} (hd : m.d = m'.d) (hlen : m.len = m'.len) : m = m' := by
  cases m
  cases m'
  cases hd
  cases hlen
  rfl

/-- Whole blocks may be absorbed before the rest of a message. The `int` that goes through a message
is exact below 2 ^ 31 bytes. -/
theorem md5_update_append (m : Md5T) {a b : List UInt8} (ha : a ≠ []) (hdvd : 64 ∣ a.length)
    (hb : b ≠ []) : md5_update (md5_update m a).1 b = md5_update m (a ++ b) := by
  have ha0 : a.length ≠ 0 := List.length_eq_zero_iff.not.mpr ha
  have hb0 : b.length ≠ 0 := List.length_eq_zero_iff.not.mpr hb
  obtain ⟨hfirst, -⟩ := md5_update_eq m a
  obtain ⟨hsecond, hstatus⟩ := md5_update_eq (md5_update m a).1 b
  obtain ⟨hboth, hstatus'⟩ := md5_update_eq m (a ++ b)
  have hlen : (md5_update m a).1.len + UInt64.ofNat b.length =
      m.len + UInt64.ofNat (a ++ b).length := by
    show m.len + UInt64.ofNat a.length + UInt64.ofNat b.length = _
    rw [List.length_append, UInt64.ofNat_add, UInt64.add_assoc]
  have hd : (md5_update (md5_update m a).1 b).1.d = (md5_update m (a ++ b)).1.d := by
    rw [closing, if_pos ⟨ha0, hdvd⟩, List.append_nil] at hfirst
    rw [hlen, hfirst, ← absorbAll_append _ (by decide) _ _ _ hdvd] at hsecond
    rw [← toBuffer_inj, hsecond, hboth, List.length_append, closing_add hdvd hb0, List.append_assoc]
  have hdone : (md5_update (md5_update m a).1 b).2 = (md5_update m (a ++ b)).2 := by
    have hwhole : (a ++ b).length ≠ 0 ∧ 64 ∣ (a ++ b).length ↔ b.length ≠ 0 ∧ 64 ∣ b.length := by
      rw [List.length_append, Nat.dvd_add_right hdvd]
      omega
    rw [hstatus, hstatus', decide_eq_decide.mpr hwhole]
  exact Prod.ext (Md5T.eq_of hd hlen) hdone

/-- One block, and then one byte. -/
theorem md5_update_append_block :
    md5_update (md5_update md5_init (List.replicate 64 97)).1 [98] =
      md5_update md5_init (List.replicate 64 97 ++ [98]) :=
  md5_update_append md5_init (List.cons_ne_nil _ _) ⟨1, rfl⟩ (List.cons_ne_nil _ _)

/-! ## `os_checksum` -/

/-- What `os.checksum` absorbs after the content of a file of `len` bytes. -/
def fileClosing (len : Nat) : List UInt8 :=
  if 64 ∣ len then [] else paddingBits len ++ lengthField (len % 2 ^ 64)

/-- A chunk of whole blocks is only absorbed. -/
theorem checksumChunk_whole (mm : Md5T) (chunk : List UInt8) (h : 64 ∣ chunk.length) :
    (checksumChunk mm chunk).d.toBuffer = absorbAll 64 compress mm.d.toBuffer chunk ∧
      (checksumChunk mm chunk).len = mm.len + UInt64.ofNat chunk.length := by
  by_cases h0 : chunk.length ≠ 0
  · obtain ⟨h1, -⟩ := md5_update_eq mm chunk
    rw [closing, if_pos ⟨h0, h⟩, List.append_nil] at h1
    rw [checksumChunk, if_pos h0]
    exact ⟨h1, rfl⟩
  · have hnil : chunk = [] := List.length_eq_zero_iff.mp (not_not.mp h0)
    subst hnil
    exact ⟨(absorbAll_of_lt _ _ _ (by decide)).symm, by simp [checksumChunk]⟩

/-- The last chunk is absorbed with its closing bytes. -/
theorem checksumChunk_last (mm : Md5T) (chunk : List UInt8) (h : ¬ 64 ∣ chunk.length) :
    (checksumChunk mm chunk).d.toBuffer = absorbAll 64 compress mm.d.toBuffer
      (chunk ++ (paddingBits chunk.length ++
        lengthField (mm.len + UInt64.ofNat chunk.length).toNat)) := by
  have h0 : chunk.length ≠ 0 := fun h0 => h (h0 ▸ Nat.dvd_zero 64)
  obtain ⟨h1, -⟩ := md5_update_eq mm chunk
  rw [closing, if_neg (fun hw => h hw.2)] at h1
  rw [checksumChunk, if_pos h0]
  exact h1

/-- Over the chunks of a file, after `done` bytes of it. -/
theorem foldl_checksumChunk (size : Nat) (hsize : 64 ∣ size) (content : List UInt8) (mm : Md5T)
    (done : Nat) (hdone : 64 ∣ done) (hlen : mm.len = UInt64.ofNat done) :
    ((freadChunks size content).foldl checksumChunk mm).d.toBuffer =
      absorbAll 64 compress mm.d.toBuffer (content ++ fileClosing (done + content.length)) := by
  induction hn : content.length using Nat.strongRecOn generalizing content mm done with
  | ind n ih =>
    subst hn
    rw [freadChunks]
    split_ifs with hfull
    · -- a full chunk
      have htake : (content.take size).length = size := by rw [List.length_take]; omega
      obtain ⟨h1, h2⟩ := checksumChunk_whole mm (content.take size) (by rw [htake]; exact hsize)
      have hlen' : (checksumChunk mm (content.take size)).len = UInt64.ofNat (done + size) := by
        rw [h2, hlen, htake, UInt64.ofNat_add]
      rw [List.foldl_cons, ih _ (by rw [List.length_drop]; omega) (content.drop size) _
        (done + size) (Nat.dvd_add hdone hsize) hlen' rfl, h1,
        ← absorbAll_append _ (by decide) _ _ _ (by rw [htake]; exact hsize), ← List.append_assoc,
        List.take_append_drop, List.length_drop]
      congr 3
      omega
    · -- the last chunk
      rw [List.foldl_cons, List.foldl_nil]
      by_cases hwhole : 64 ∣ content.length
      · rw [(checksumChunk_whole mm content hwhole).1, fileClosing,
          if_pos (Nat.dvd_add hdone hwhole), List.append_nil]
      · have hpad : paddingBits content.length = paddingBits (done + content.length) := by
          rw [paddingBits, paddingBits, Nat.add_mod, Nat.mod_eq_zero_of_dvd hdone, Nat.zero_add,
            Nat.mod_mod]
        rw [checksumChunk_last mm content hwhole, fileClosing,
          if_neg (fun h => hwhole ((Nat.dvd_add_right hdone).mp h)), hpad, hlen,
          ← UInt64.ofNat_add, UInt64.toNat_ofNat']

/-- The digest of `os.checksum` is that of the content followed by `fileClosing`. -/
theorem checksumBytes_eq (content : List UInt8) :
    checksumBytes content =
      output (absorbAll 64 compress Rfc1321.init (content ++ fileClosing content.length)) := by
  have h := foldl_checksumChunk 32768 (by decide) content md5_init 0 (Nat.dvd_zero 64) rfl
  rw [Nat.zero_add] at h
  rw [checksumBytes, md5_finish, word32tobytes_eq, h]
  rfl

/-- The lengths for which `fileClosing` is the padding of the RFC: no multiple of 64, and short
enough for the 35 bits of the length field. -/
def ClosesRight (len : Nat) : Prop := ¬ 64 ∣ len ∧ len % 2 ^ 61 < 2 ^ 32

instance (len : Nat) : Decidable (ClosesRight len) := inferInstanceAs (Decidable (_ ∧ _))

theorem lengthField_eq_iff (len : Nat) :
    lengthField (len % 2 ^ 64) = bytesLE 8 (8 * len) ↔ len % 2 ^ 61 < 2 ^ 32 := by
  have hlo : bytesLE 4 (8 * (len % 2 ^ 64)) = bytesLE 4 (8 * len) := by
    rw [← bytesLE_mod 4 (8 * (len % 2 ^ 64)), ← bytesLE_mod 4 (8 * len)]
    congr 1
    omega
  rw [show (8 : Nat) = 4 + 4 from rfl, bytesLE_add 4 4, lengthField, ← show (8 : Nat) = 4 + 4 from rfl,
    hlo, List.append_cancel_left_eq]
  constructor
  · intro h
    have := bytesLE_inj h
    omega
  · intro h
    rw [← bytesLE_mod 4 (8 * len / 256 ^ 4)]
    congr 1
    omega

/-- `fileClosing` is the padding of the RFC for exactly these lengths. -/
theorem fileClosing_eq_padding_iff (len : Nat) :
    fileClosing len = padding len ↔ ClosesRight len := by
  unfold fileClosing padding ClosesRight
  split_ifs with h
  · simp [h, paddingBits]
  · rw [List.append_cancel_left_eq, lengthField_eq_iff]
    simp [h]

theorem output_inj {p q : Buffer} (h : output p = output q) : p = q := by
  have hword : ∀ v w : UInt32, bytesLE 4 v.toNat = bytesLE 4 w.toNat → v = w := by
    intro v w hvw
    have hv := v.toNat_lt
    have hw := w.toNat_lt
    have := bytesLE_inj hvw
    apply UInt32.toNat_inj.mp
    omega
  simp only [output, List.append_assoc] at h
  obtain ⟨ha, h⟩ := List.append_inj h (by simp)
  obtain ⟨hb, h⟩ := List.append_inj h (by simp)
  obtain ⟨hc, hd⟩ := List.append_inj h (by simp)
  cases p
  cases q
  simp only [Buffer.mk.injEq]
  exact ⟨hword _ _ ha, hword _ _ hb, hword _ _ hc, hword _ _ hd⟩

/-- `os.checksum` gives the MD5 digest of every file whose length is no multiple of 64 and fits
the length field. Of any other file it digests other bytes than the RFC does, so that it is
right only if the two happen to collide. -/
theorem checksumBytes_eq_md5 (content : List UInt8) :
    (ClosesRight content.length → checksumBytes content = md5 content) ∧
    (¬ ClosesRight content.length →
      content ++ fileClosing content.length ≠ content ++ padding content.length ∧
      (checksumBytes content = md5 content →
        absorbAll 64 compress Rfc1321.init (content ++ fileClosing content.length) =
          absorbAll 64 compress Rfc1321.init (content ++ padding content.length))) := by
  rw [checksumBytes_eq, md5]
  constructor
  · intro h
    rw [(fileClosing_eq_padding_iff content.length).mpr h]
  · intro h
    refine ⟨fun heq => ?_, output_inj⟩
    exact h ((fileClosing_eq_padding_iff content.length).mp (List.append_cancel_left heq))

/-- An empty file gets the initial buffer for its digest. -/
theorem checksumBytes_empty : checksumBytes [] ≠ md5 [] := by
  rw [checksumBytes_eq]
  decide +kernel

end Luaxx.Checksum
