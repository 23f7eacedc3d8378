import Hemem.Lib.Transfer
import Hemem.Conc.Copying

/-!
# Hemem.Conc.Chunks — what the copy threads do to the memory

A job is cut into `MAX_COPY_THREADS` chunks of the same size, and each copy thread copies or
clears one. The order in which they do it makes no difference as long as the two ranges of a
copy are apart; but the chunks cover the buffer only up to the remainder of the division, and
the rest of it keeps what it had.
-/

namespace Hemem

open Lib

variable {T : Nat}

/-! ## A whole call -/

def CopyCall.dst : CopyCall → Nat
  | .memcpy dst _ _ => dst
  | .memset addr _ _ => addr

def CopyCall.length : CopyCall → Nat
  | .memcpy _ _ length => length
  | .memset _ _ n => n

/-- What byte `i` of the buffer is to be. -/
def CopyCall.byte : CopyCall → (Nat → Byte) → Nat → Byte
  | .memcpy _ src _, mem, i => mem (src + i)
  | .memset _ _ _, _, _ => 0

/-- `dst` and `src` do not overlap. -/
def CopyCall.Apart : CopyCall → Prop
  | .memcpy dst src length => src + length ≤ dst ∨ dst + length ≤ src
  | .memset _ _ _ => True

/-- What the build with `USE_DMA` does instead: one copy, or one `memset`, of the full length. -/
def CopyCall.whole (k : CopyCall) (mem : Nat → Byte) : Nat → Byte :=
  fun a => if inRange k.dst k.length a then k.byte mem (a - k.dst) else mem a

/-- The call has done its work on `mem` and left `mem'`. -/
structure CopyCall.Covers (k : CopyCall) (mem mem' : Nat → Byte) : Prop where
  inside : ∀ i < k.length, mem' (k.dst + i) = k.byte mem' i
  outside : ∀ a, inRange k.dst k.length a = false → mem' a = mem a
  whole : mem' = k.whole mem

/-! ## The chunks -/

/-- The chunk of the copy thread `t`. -/
def CopyCall.chunk (k : CopyCall) (t : Fin T) : Transfer Nat Byte where
  target := inRange (k.dst + t * (k.length / T)) (k.length / T)
  value mem a := k.byte mem (a - k.dst)

/-- A copy thread runs the transfer of its chunk. -/
theorem runChunk_eq (k : CopyCall) (t : Fin T) (mem : Nat → Byte) :
    k.job.runChunk T t mem = (k.chunk t).run mem := by
  funext a
  by_cases ha : (k.chunk t).target a
  · rw [Transfer.run_target ha]
    have hin := inRange_iff.mp ha
    cases k with
    | memcpy dst src length =>
      refine (if_pos hin).trans (congrArg mem ?_)
      simp only [CopyCall.dst, CopyCall.length, CopyCall.job] at hin ⊢
      omega
    | memset addr c n => exact if_pos hin
  · rw [Transfer.run_other ha]
    have hout := mt inRange_iff.mpr ha
    cases k with
    | memcpy dst src length => exact if_neg hout
    | memset addr c n => exact if_neg hout

/-- The copy threads run their chunks of a job in the order `order`. -/
def PmemcpyJob.runChunks (j : PmemcpyJob) (order : List (Fin T)) (mem : Nat → Byte) :
    Nat → Byte :=
  order.foldl (fun mem (t : Fin T) => j.runChunk T t mem) mem

/-- The copy threads run the transfers of their chunks, in the order in which they come. -/
theorem runChunks_eq (k : CopyCall) (order : List (Fin T)) (mem : Nat → Byte) :
    k.job.runChunks order mem = Transfer.runAll (order.map k.chunk) mem := by
  rw [PmemcpyJob.runChunks, Transfer.runAll, List.foldl_map]
  refine List.foldl_ext _ _ _ fun mem t _ => ?_
  exact runChunk_eq k t mem

variable {k : CopyCall} {mem : Nat → Byte}

/-- The chunks lie within the buffer, one behind the other. -/
theorem chunk_end {t u n : Nat} (h : t < u) (c : Nat) (hn : u ≤ n) :
    t * c + c ≤ n * c := by
  calc t * c + c = (t + 1) * c := (Nat.succ_mul t c).symm
    _ ≤ n * c := Nat.mul_le_mul_right c (Nat.le_trans h hn)

/-- A chunk ends where the range does at the latest. -/
theorem chunk_le (t : Fin T) (length : Nat) :
    t * (length / T) + length / T ≤ length :=
  Nat.le_trans (chunk_end t.isLt _ (Nat.le_refl T)) (Nat.mul_div_le length T)

/-- A chunk writes within the destination. -/
theorem chunk_inRange {t : Fin T} {a : Nat} (ha : (k.chunk t).target a) :
    inRange k.dst k.length a = true := by
  have hle := chunk_le t k.length
  simp only [CopyCall.chunk, inRange_iff] at ha ⊢
  omega

/-- What a chunk is read from is outside the buffer. -/
theorem byte_congr (hk : k.Apart) {mem' : Nat → Byte}
    (hsame : ∀ a, inRange k.dst k.length a = false → mem' a = mem a) {i : Nat}
    (hi : i < k.length) : k.byte mem' i = k.byte mem i := by
  cases k with
  | memcpy dst src length =>
    refine hsame _ (Bool.eq_false_iff.mpr ?_)
    simp only [ne_eq, inRange_iff, CopyCall.dst, CopyCall.length, CopyCall.Apart] at hk hi ⊢
    omega
  | memset addr c n => rfl

/-- No chunk writes what another one reads. -/
theorem chunk_value (hk : k.Apart) {t u : Fin T} (mem : Nat → Byte) {a : Nat}
    (ha : (k.chunk t).target a) :
    (k.chunk t).value ((k.chunk u).run mem) a = (k.chunk t).value mem a := by
  refine byte_congr hk (fun b hb => Transfer.run_other fun hu => ?_) ?_
  · rw [chunk_inRange hu] at hb
    cases hb
  · have hin := inRange_iff.mp (chunk_inRange ha)
    omega

/-- No two chunks write the same byte. -/
theorem chunk_apart {t u : Fin T} (htu : t ≠ u) {a : Nat} (ht : (k.chunk t).target a)
    (hu : (k.chunk u).target a) : False := by
  simp only [CopyCall.chunk, inRange_iff] at ht hu
  -- the chunk with the smaller number ends where the next one begins, or before
  rcases Nat.lt_or_gt_of_ne (Fin.val_ne_of_ne htu) with hlt | hlt
  · have := chunk_end hlt (k.length / T) (Nat.le_refl u.val)
    omega
  · have := chunk_end hlt (k.length / T) (Nat.le_refl t.val)
    omega

/-- So the order of the chunks does not matter. -/
theorem chunks_independent (hk : k.Apart) {order : List (Fin T)} (hnd : order.Nodup) :
    (order.map k.chunk).Pairwise Transfer.Independent := by
  rw [List.pairwise_map]
  refine hnd.imp fun htu => ?_
  constructor
  · exact chunk_apart htu
  · exact fun mem => chunk_value hk mem
  · exact fun mem => chunk_value hk mem

/-! ## What is covered -/

/-- The chunks of all copy threads are the bytes before the remainder. -/
theorem exists_chunk_iff {i : Nat} :
    (∃ t : Fin T, (k.chunk t).target (k.dst + i)) ↔ i < T * (k.length / T) := by
  simp only [CopyCall.chunk, inRange_iff]
  constructor
  · rintro ⟨t, -, hlt⟩
    have := chunk_end t.isLt (k.length / T) (Nat.le_refl T)
    omega
  · intro hi
    have hc : 0 < k.length / T := Nat.pos_of_lt_mul_left hi
    refine ⟨⟨i / (k.length / T), Nat.div_lt_of_lt_mul (by rwa [Nat.mul_comm])⟩, ?_⟩
    have hmod := Nat.mod_lt i hc
    have hdiv := Nat.div_add_mod' i (k.length / T)
    dsimp only
    omega

/-- The bytes before the remainder are those of the full copy, and the rest is untouched. -/
theorem runChunks_apply (hk : k.Apart) {order : List (Fin T)}
    (horder : order.Perm (List.finRange T)) (mem : Nat → Byte) (a : Nat) :
    k.job.runChunks order mem a =
      if inRange k.dst (T * (k.length / T)) a then k.byte mem (a - k.dst) else mem a := by
  have hnd : order.Nodup := horder.nodup_iff.mpr (List.nodup_finRange T)
  rw [runChunks_eq]
  split
  · rename_i ha
    rw [inRange_iff] at ha
    have hi : a - k.dst < T * (k.length / T) := by omega
    rcases exists_chunk_iff.mpr hi with ⟨t, ht⟩
    rw [Nat.add_sub_cancel' ha.1] at ht
    have hmem : k.chunk t ∈ order.map k.chunk :=
      List.mem_map_of_mem (horder.mem_iff.mpr (List.mem_finRange t))
    exact Transfer.runAll_target (chunks_independent hk hnd) hmem ht
  · rename_i ha
    -- a byte of some chunk is before the remainder
    refine Transfer.runAll_other fun x hx hat => ha ?_
    rcases List.mem_map.mp hx with ⟨t, -, rfl⟩
    have hin := inRange_iff.mp (chunk_inRange hat)
    rw [← Nat.add_sub_cancel' hin.1] at hat
    have hi := exists_chunk_iff.mp ⟨t, hat⟩
    rw [inRange_iff]
    omega

/-- The whole copy leaves what the call is to leave, and nothing else does. -/
theorem covers_iff (hk : k.Apart) {mem' : Nat → Byte} :
    k.Covers mem mem' ↔ mem' = k.whole mem := by
  refine ⟨fun h => h.whole, ?_⟩
  rintro rfl
  have houtside : ∀ a, inRange k.dst k.length a = false → k.whole mem a = mem a :=
    fun a ha => if_neg (Bool.eq_false_iff.mp ha)
  constructor
  · intro i hi
    have hin : inRange k.dst k.length (k.dst + i) = true := by
      rw [inRange_iff]
      omega
    rw [byte_congr hk houtside hi, CopyCall.whole, if_pos hin, Nat.add_sub_cancel_left]
  · exact houtside
  · rfl

/-- The chunks cover all but the remainder of the division. -/
theorem covers_of_tail (hk : k.Apart) {order : List (Fin T)}
    (horder : order.Perm (List.finRange T))
    (htail : ∀ i, T * (k.length / T) ≤ i → i < k.length → mem (k.dst + i) = k.byte mem i) :
    k.Covers mem (k.job.runChunks order mem) := by
  have hle := Nat.mul_div_le k.length T
  rw [covers_iff hk]
  funext a
  rw [runChunks_apply hk horder, CopyCall.whole]
  by_cases ha : inRange k.dst (T * (k.length / T)) a = true
  · have hin : inRange k.dst k.length a = true := by
      rw [inRange_iff] at ha ⊢
      omega
    rw [if_pos ha, if_pos hin]
  · rw [if_neg ha]
    split
    · rename_i hin
      rw [inRange_iff] at ha hin
      have hbyte := htail (a - k.dst) (by omega) (by omega)
      rwa [Nat.add_sub_cancel' hin.1] at hbyte
    · rfl

/-- Conversely the remainder, which no chunk writes, must be right from the start. -/
theorem CopyCall.Covers.tail (hk : k.Apart) {order : List (Fin T)}
    (horder : order.Perm (List.finRange T))
    (h : k.Covers mem (k.job.runChunks order mem)) {i : Nat}
    (hi : T * (k.length / T) ≤ i) (hlt : i < k.length) :
    mem (k.dst + i) = k.byte mem i := by
  have hin : inRange k.dst k.length (k.dst + i) = true := by
    rw [inRange_iff]
    omega
  have hout : ¬ inRange k.dst (T * (k.length / T)) (k.dst + i) = true := by
    rw [inRange_iff]
    omega
  calc mem (k.dst + i) = k.job.runChunks order mem (k.dst + i) := by
        rw [runChunks_apply hk horder, if_neg hout]
    _ = k.whole mem (k.dst + i) := by rw [h.whole]
    _ = k.byte mem i := by
        rw [CopyCall.whole, if_pos hin, Nat.add_sub_cancel_left]

/-- Whatever the order of the copy threads, a call does its work exactly when the bytes of the
remainder have been what they should become already; a length that the number of copy threads
divides leaves no remainder. -/
theorem runChunks_covers_iff {order : List (Fin T)} (horder : order.Perm (List.finRange T))
    (hk : k.Apart) (mem : Nat → Byte) :
    k.Covers mem (k.job.runChunks order mem) ↔
      ∀ i, T * (k.length / T) ≤ i → i < k.length → mem (k.dst + i) = k.byte mem i := by
  constructor
  · exact fun h i hi hlt => h.tail hk horder hi hlt
  · exact covers_of_tail hk horder

/-- A call does its work on every memory exactly when there is no remainder. -/
theorem runChunks_covers_all_iff {order : List (Fin T)} (horder : order.Perm (List.finRange T))
    (hk : k.Apart) : (∀ mem, k.Covers mem (k.job.runChunks order mem)) ↔ k.length % T = 0 := by
  have hsplit := Nat.div_add_mod k.length T
  constructor
  · intro h
    by_contra hne
    have hlt : T * (k.length / T) < k.length := by omega
    -- a memory whose first uncovered byte is the only one that is not zero
    have hbyte := (h (Function.update (fun _ => 0) (k.dst + T * (k.length / T)) 1)).tail hk
      horder (Nat.le_refl _) hlt
    rw [Function.update_self] at hbyte
    cases k with
    | memcpy dst src length =>
      have hne : src + T * (length / T) ≠ dst + T * (length / T) := by
        simp only [CopyCall.length, CopyCall.Apart] at hk hlt
        omega
      simp only [CopyCall.byte, CopyCall.dst, CopyCall.length, Function.update_of_ne hne] at hbyte
      cases hbyte
    | memset addr c n => cases hbyte
  · intro hzero mem
    refine covers_of_tail hk horder fun i hi hlt => ?_
    omega

/-- Two huge pages side by side, the second copied to the first. -/
def hugeCopy : CopyCall := .memcpy 0 hugepageSize hugepageSize

/-- Source and destination do not overlap. -/
theorem hugeCopy_apart : hugeCopy.Apart := Or.inr (Nat.le_of_eq (Nat.zero_add _))

/-- Four threads divide a huge page without remainder. -/
theorem runChunks_covers_four :
    hugeCopy.Covers UInt8.ofNat (hugeCopy.job.runChunks [3, 1, 0, (2 : Fin 4)] UInt8.ofNat) := by
  refine (runChunks_covers_iff (by decide) hugeCopy_apart UInt8.ofNat).mpr fun i hi hlt => ?_
  exact absurd (Nat.lt_of_le_of_lt hi hlt) (by decide)

/-- Three copy threads leave the last two bytes of a huge page as they were. -/
theorem runChunks_covers_fails_three :
    ¬ hugeCopy.Covers (fun a => if a < hugepageSize then 0 else 1)
      (hugeCopy.job.runChunks (List.finRange 3) fun a => if a < hugepageSize then 0 else 1) := by
  intro h
  have hbyte := h.tail hugeCopy_apart (List.Perm.refl _) (i := hugepageSize - 1) (by decide)
    (by decide)
  revert hbyte
  decide

end Hemem
