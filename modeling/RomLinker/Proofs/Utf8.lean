import RomLinker.Proofs.Workspace

/-!
The tolerant reader of UTF-8. Text comes back as it is (`charsFrom_utf8Encode`), so that `decode` is the
tolerant reader for all bytes (`toList_decode`). A line feed is never part of a character: it ends what is
pending, and no other byte is read as one, so that what is read of a text is read line by line
(`splitOn_charsFrom`).
-/
namespace RomLinker.Text.Utf8

deriving instance DecidableEq for Pending, Opening

/-- The characters that bytes are read as, behind a character begun. -/
def charsFrom : Option Pending → List UInt8 → List Char
  | none, [] => []
  | some _, [] => [replacement]
  | pending, b :: bs => (step pending b).1 ++ charsFrom (step pending b).2 bs

theorem charsFrom_cons (pending : Option Pending) (b : UInt8) (bs : List UInt8) :
    charsFrom pending (b :: bs) = (step pending b).1 ++ charsFrom (step pending b).2 bs := by
  cases pending <;> rfl

theorem toList_push_all (text : String) (out : List Char) :
    (out.foldl String.push text).toList = text.toList ++ out := by
  induction out generalizing text with
  | nil => simp
  | cons c out ih => simp [ih]

theorem toList_decodeFrom (text : String) (pending : Option Pending) (bytes : List UInt8) :
    (decodeFrom text pending bytes).toList = text.toList ++ charsFrom pending bytes := by
  induction bytes generalizing text pending with
  | nil =>
    cases pending with
    | none => simp [decodeFrom, charsFrom]
    | some p => simp [decodeFrom, charsFrom]
  | cons b bs ih =>
    have next : decodeFrom text pending (b :: bs) =
        decodeFrom ((step pending b).1.foldl String.push text) (step pending b).2 bs := by
      cases pending <;> rfl
    rw [next, ih, toList_push_all, charsFrom_cons, List.append_assoc]

theorem toNat_byte {n : Nat} (small : n < 256) : (UInt8.ofNat n).toNat = n :=
  UInt8.toNat_ofNat_of_lt' small

section
variable {owed bits d : Nat} {low high : UInt8}

theorem step_continue (above : low.toNat ≤ d + 128) (below : d + 128 ≤ high.toNat) :
    step (some ⟨owed, low, high, bits⟩) (UInt8.ofNat (d + 128)) =
      if owed ≤ 1 then ([Char.ofNat (bits * 64 + d)], none)
      else ([], some ⟨owed - 1, 0x80, 0xBF, bits * 64 + d⟩) := by
  have bound : high.toNat < 256 := high.toNat_lt
  have byte : (UInt8.ofNat (d + 128)).toNat = d + 128 := toNat_byte (by omega)
  have fits : low ≤ UInt8.ofNat (d + 128) ∧ UInt8.ofNat (d + 128) ≤ high := by
    rw [UInt8.le_iff_toNat_le, UInt8.le_iff_toNat_le, byte]
    exact ⟨above, below⟩
  have worth : d + 128 - 128 = d := Nat.add_sub_cancel ..
  rw [step, if_pos fits, byte, worth]

theorem charsFrom_last (one : owed ≤ 1) (above : low.toNat ≤ d + 128) (below : d + 128 ≤ high.toNat)
    (bs : List UInt8) : charsFrom (some ⟨owed, low, high, bits⟩) (UInt8.ofNat (d + 128) :: bs) =
      Char.ofNat (bits * 64 + d) :: charsFrom none bs := by
  rw [charsFrom_cons, step_continue above below, if_pos one]
  rfl

/-- A byte of the pending character with others to follow, which can be any of theirs. -/
theorem charsFrom_more (more : 1 < owed) (above : low.toNat ≤ d + 128) (below : d + 128 ≤ high.toNat)
    (bs : List UInt8) : charsFrom (some ⟨owed, low, high, bits⟩) (UInt8.ofNat (d + 128) :: bs) =
      charsFrom (some ⟨owed - 1, 0x80, 0xBF, bits * 64 + d⟩) bs := by
  rw [charsFrom_cons, step_continue above below, if_neg (Nat.not_le.mpr more)]
  rfl

end

theorem charsFrom_whole {n : Nat} (small : n < 0x80) (bs : List UInt8) :
    charsFrom none (UInt8.ofNat n :: bs) = Char.ofNat n :: charsFrom none bs := by
  have byte : (UInt8.ofNat n).toNat = n := toNat_byte (by omega)
  rw [charsFrom_cons, step, start, opening, byte, if_pos small]
  rfl

theorem charsFrom_opening {b : UInt8} {p : Pending} (opens : opening b = .pending p) (bs : List UInt8) :
    charsFrom none (b :: bs) = charsFrom (some p) bs := by
  rw [charsFrom_cons, step, start, opens]
  rfl

theorem opening_two {d : Nat} (low : 2 ≤ d) (high : d < 0x20) :
    opening (UInt8.ofNat (d + 192)) = .pending ⟨1, 0x80, 0xBF, d⟩ := by
  have byte : (UInt8.ofNat (d + 192)).toNat = d + 192 := toNat_byte (by omega)
  rw [opening, byte, if_neg (by omega), if_neg (by omega), if_pos (by omega), Nat.add_sub_cancel]

/-- The first byte of a character of three bytes, and the bounds of the second one. -/
theorem opening_three {d : Nat} (high : d < 0x10) : opening (UInt8.ofNat (d + 224)) =
    .pending ⟨2, if d = 0 then 0xA0 else 0x80, if d = 0xD then 0x9F else 0xBF, d⟩ := by
  revert d
  decide

theorem opening_four {d : Nat} (high : d < 5) : opening (UInt8.ofNat (d + 240)) =
    .pending ⟨3, if d = 0 then 0x90 else 0x80, if d = 4 then 0x8F else 0xBF, d⟩ := by
  revert d
  decide

theorem charsFrom_char (c : Char) (bs : List UInt8) :
    charsFrom none (String.utf8EncodeChar c ++ bs) = c :: charsFrom none bs := by
  have scalar : c.toNat < 0xD800 ∨ 0xDFFF < c.toNat ∧ c.toNat < 0x110000 := c.valid
  have whole : Char.ofNat c.toNat = c := Char.ofNat_toNat c
  have value : c.val.toNat = c.toNat := rfl
  unfold String.utf8EncodeChar
  simp only [value]
  generalize c.toNat = v at scalar whole
  -- behind the first byte the digits are checked in base 64, those of the second byte against its bounds
  split
  · rw [List.singleton_append, charsFrom_whole (by omega), whole]
  split
  · have bits : v / 64 % 32 * 64 + v % 64 = v := by omega
    rw [List.cons_append, List.singleton_append, charsFrom_opening (opening_two (by omega) (by omega)),
      charsFrom_last (Nat.le_refl 1) (Nat.le_add_left ..) (by simp; omega), bits, whole]
  split
  · have bits : (v / 4096 % 16 * 64 + v / 64 % 64) * 64 + v % 64 = v := by omega
    rw [List.cons_append, List.cons_append, List.singleton_append, charsFrom_opening (opening_three (by omega)),
      charsFrom_more (Nat.lt_succ_self 1) (by split <;> simp; omega) (by split <;> (simp; omega)),
      charsFrom_last (Nat.le_refl 1) (Nat.le_add_left ..) (by simp; omega), bits, whole]
  · have bits : ((v / 262144 % 8 * 64 + v / 4096 % 64) * 64 + v / 64 % 64) * 64 + v % 64 = v := by omega
    rw [List.cons_append, List.cons_append, List.cons_append, List.singleton_append,
      charsFrom_opening (opening_four (by omega)),
      charsFrom_more (by decide) (by split <;> simp; omega) (by split <;> (simp; omega)),
      charsFrom_more (by decide) (Nat.le_add_left ..) (by simp; omega),
      charsFrom_last (Nat.le_refl 1) (Nat.le_add_left ..) (by simp; omega), bits, whole]

theorem charsFrom_utf8Encode (cs : List Char) : charsFrom none (cs.flatMap String.utf8EncodeChar) = cs := by
  induction cs with
  | nil => rfl
  | cons c cs ih => rw [List.flatMap_cons, charsFrom_char, ih]

theorem toList_decode (bytes : ByteArray) : (decode bytes).toList = charsFrom none bytes.data.toList := by
  by_cases valid : bytes.IsValidUTF8
  · obtain ⟨cs, rfl⟩ := valid
    have text : cs.utf8Encode = (String.ofList cs).toUTF8 := by
      rw [String.toUTF8_eq_toByteArray, String.toByteArray_ofList]
    have bytes : cs.utf8Encode.data.toList = cs.flatMap String.utf8EncodeChar := List.toList_data_toByteArray
    rw [bytes, text, decode_toUTF8, String.toList_ofList, charsFrom_utf8Encode]
  · rw [decode, String.fromUTF8?, dif_neg valid, toList_decodeFrom]
    rfl

/-- No line feed is part of the character: its next byte is none, and what it is in the end is past ASCII. -/
structure Pending.Sound (p : Pending) : Prop where
  low : 0x80 ≤ p.low.toNat
  next : 2 ≤ p.bits * 64 + (p.low.toNat - 0x80)
  last : p.owed ≤ 1 → 2 ≤ p.bits

variable {pending : Option Pending} {b : UInt8}

theorem opening_sound {p : Pending} (opens : opening b = .pending p) : p.Sound := by
  revert opens
  fun_cases opening b <;> intro opens <;> cases opens <;> constructor <;> simp <;> omega

theorem start_sound {q : Pending} (left : (start b).2 = some q) : q.Sound := by
  unfold start at left
  split at left
  · cases left
  · rename_i p opens
    cases left
    exact opening_sound opens
  · cases left

theorem step_sound (sound : ∀ p ∈ pending, p.Sound) {q : Pending} (left : (step pending b).2 = some q) :
    q.Sound := by
  cases pending with
  | none => exact start_sound left
  | some p =>
    unfold step at left
    dsimp only at left
    split at left
    · rename_i fits
      have above : p.low.toNat ≤ b.toNat := UInt8.le_iff_toNat_le.mp fits.1
      have here := (sound p rfl).next
      split at left
      · cases left
      · cases left
        -- the first byte that follows is the least that its bounds let pass, or more
        exact ⟨Nat.le_refl 128, by dsimp only; omega, fun _ => by dsimp only; omega⟩
    · exact start_sound left

theorem charsFrom_feed (sound : ∀ p ∈ pending, p.Sound) (bs : List UInt8) :
    charsFrom pending (0x0A :: bs) = charsFrom pending [] ++ '\n' :: charsFrom none bs := by
  cases pending with
  | none => exact charsFrom_cons none 0x0A bs
  | some p =>
    have early : ¬ (p.low ≤ 0x0A ∧ 0x0A ≤ p.high) := by
      intro fits
      have above := UInt8.le_iff_toNat_le.mp fits.1
      have low := (sound p rfl).low
      have feed : (0x0A : UInt8).toNat = 10 := rfl
      omega
    rw [charsFrom_cons, step, if_neg early]
    rfl

theorem eq_of_ofNat_eq_feed {n : Nat} (feed : Char.ofNat n = '\n') : n = 10 := by
  by_cases valid : n.isValidChar
  · have code : (Char.ofNat n).toNat = n := by
      rw [Char.ofNat, dif_pos valid]
      rfl
    rw [← code, feed]
    rfl
  · rw [Char.ofNat, dif_neg valid] at feed
    cases feed

theorem eq_of_whole_feed (whole : opening b = .whole '\n') : b = 0x0A := by
  revert whole
  fun_cases opening b
  case case1 =>
    intro whole
    exact UInt8.toNat_inj.mp (eq_of_ofNat_eq_feed (Opening.whole.inj whole))
  all_goals nofun

theorem feed_of_mem_start (member : '\n' ∈ (start b).1) : b = 0x0A := by
  unfold start at member
  split at member
  · rename_i c whole
    obtain rfl := List.mem_singleton.mp member
    exact eq_of_whole_feed whole
  · cases member
  · cases List.mem_singleton.mp member

/-- No other byte is read as a line feed. -/
theorem feed_of_mem_step (sound : ∀ p ∈ pending, p.Sound) (member : '\n' ∈ (step pending b).1) : b = 0x0A := by
  cases pending with
  | none => exact feed_of_mem_start member
  | some p =>
    unfold step at member
    dsimp only at member
    split at member
    · rename_i fits
      have above : p.low.toNat ≤ b.toNat := UInt8.le_iff_toNat_le.mp fits.1
      split at member
      · rename_i last
        have bits := (sound p rfl).last last
        have code := eq_of_ofNat_eq_feed (List.mem_singleton.mp member).symm
        omega
      · cases member
    · rcases List.mem_cons.mp member with same | member
      · cases same
      · exact feed_of_mem_start member

theorem not_mem_charsFrom (sound : ∀ p ∈ pending, p.Sound) {line : List UInt8} (whole : 0x0A ∉ line) :
    '\n' ∉ charsFrom pending line := by
  induction line generalizing pending with
  | nil =>
    cases pending with
    | none => exact List.not_mem_nil
    | some p => exact (by decide : '\n' ∉ [replacement])
  | cons b line ih =>
    have other : b ≠ 0x0A := fun same => whole (same ▸ List.mem_cons_self)
    have below : 0x0A ∉ line := fun member => whole (List.mem_cons_of_mem b member)
    rw [charsFrom_cons, List.mem_append]
    rintro (member | member)
    · exact other (feed_of_mem_step sound member)
    · exact ih (fun _ left => step_sound sound left) below member

theorem charsFrom_append_feed (sound : ∀ p ∈ pending, p.Sound) (line rest : List UInt8) :
    charsFrom pending (line ++ 0x0A :: rest) = charsFrom pending line ++ '\n' :: charsFrom none rest := by
  induction line generalizing pending with
  | nil => exact charsFrom_feed sound rest
  | cons b line ih =>
    rw [List.cons_append, charsFrom_cons, charsFrom_cons, ih fun _ left => step_sound sound left, List.append_assoc]

/-- What is read of bytes is read line by line. -/
theorem splitOn_charsFrom (bytes : List UInt8) :
    (charsFrom none bytes).splitOn '\n' = (bytes.splitOn 0x0A).map (charsFrom none) := by
  have sound : ∀ p ∈ (none : Option Pending), p.Sound := nofun
  induction bytes using stretchInduction (0x0A : UInt8) with
  | last line whole =>
    rw [List.splitOn_eq_singleton (not_mem_charsFrom sound whole), List.splitOn_eq_singleton whole]
    rfl
  | below line rest whole ih =>
    rw [charsFrom_append_feed sound, List.splitOn_append_cons_self, ih,
      List.splitOn_eq_singleton (not_mem_charsFrom sound whole), List.splitOn_append_cons_self,
      List.splitOn_eq_singleton whole, List.map_append]
    rfl

theorem charsFrom_ascii {bytes : List UInt8} (ascii : ∀ b ∈ bytes, b < 0x80) :
    charsFrom none bytes = bytes.map fun b => Char.ofNat b.toNat := by
  induction bytes with
  | nil => rfl
  | cons b bytes ih =>
    obtain ⟨first, below⟩ := List.forall_mem_cons.mp ascii
    have whole := charsFrom_whole (UInt8.lt_iff_toNat_lt.mp first) bytes
    rw [UInt8.ofNat_toNat] at whole
    rw [whole, ih below, List.map_cons]

end RomLinker.Text.Utf8
