/-
# `OhosBun.OhosSign.Merkle` — the hash tree and the descriptor

`rootHash` hashes every page of a file, the pages of the code-sign section counting as
zero, and folds 128 hashes a page until one is left.  It reads nothing of the pages it
skips (`rootHash_congr`).

`build` is the descriptor that goes into the signature: two descriptors that differ in
their signature size differ in that field only (`patch_signSize_build`).
-/
import OhosBun.Lib.Buffer
import OhosBun.OhosSign.Sha256

namespace OhosBun.OhosSign

open OhosBun.Lib

namespace Merkle

def PAGE : Nat := 4096

/-- The length of a hash. -/
def H : Nat := 32

/-- Some bytes as a page, filled up with zeros. -/
def page (bs : Bytes) : Bytes := bs ++ List.replicate (PAGE - bs.length) 0

/-- The hashes of the pages of a level, 128 hashes a page. -/
def nextLevel (cur : List Bytes) : List Bytes :=
  (List.range ((cur.length * H + PAGE - 1) / PAGE)).map fun i =>
    Sha256.hash (page ((cur.drop (i * PAGE / H)).take (PAGE / H)).flatten)

/-- Folds the hashes of a level until they fit in a page. -/
def fold (cur : List Bytes) : Bytes :=
  if cur.length * H ≤ PAGE then Sha256.hash (page cur.flatten)
  else fold (nextLevel cur)
termination_by cur.length
decreasing_by
  simp only [nextLevel, List.length_map, List.length_range, H, PAGE] at *
  omega

def csPageBegin (csOff : Nat) : Nat := csOff / PAGE

def csPageEnd (csOff csLen : Nat) : Nat :=
  if csLen > 0 then (csOff + csLen + PAGE - 1) / PAGE else 0

/-- The hash of a page, zero in the range of the code-sign section. -/
def pageHash (data : Bytes) (csOff csLen i : Nat) : Bytes :=
  if csLen > 0 ∧ csPageBegin csOff ≤ i ∧ i < csPageEnd csOff csLen then List.replicate H 0
  else Sha256.hash (page (window data (i * PAGE) (min PAGE (data.length - i * PAGE))))

def rootHash (data : Bytes) (csOff csLen : Nat) : Bytes :=
  if data = [] then Sha256.hash (List.replicate PAGE 0)
  else
    let npages := (data.length + PAGE - 1) / PAGE
    let cur := (List.range npages).map (pageHash data csOff csLen)
    if cur.length = 1 then cur.headD [] else fold cur

theorem length_fold (cur : List Bytes) : (fold cur).length = 32 := by
  fun_induction fold cur with
  | case1 cur h => exact Sha256.length_hash _
  | case2 cur h ih => exact ih

theorem length_pageHash (data : Bytes) (csOff csLen i : Nat) :
    (pageHash data csOff csLen i).length = 32 := by
  unfold pageHash
  split
  · simp [H]
  · exact Sha256.length_hash _

theorem length_rootHash (data : Bytes) (csOff csLen : Nat) :
    (rootHash data csOff csLen).length = 32 := by
  unfold rootHash
  split
  · exact Sha256.length_hash _
  dsimp only
  split
  next h =>
    obtain ⟨hash, hcur⟩ := List.length_eq_one_iff.1 h
    have hmem : hash ∈ (List.range ((data.length + PAGE - 1) / PAGE)).map
        (pageHash data csOff csLen) := by rw [hcur]; simp
    obtain ⟨i, -, rfl⟩ := List.mem_map.1 hmem
    rw [hcur]
    exact length_pageHash data csOff csLen i
  next => exact length_fold _

/-- The root does not depend on what stands in the page of the code-sign section. -/
theorem rootHash_congr {data data' : Bytes} {csOff : Nat} (halign : csOff % PAGE = 0)
    (hlen : data.length = data'.length)
    (heq : ∀ i, i < csOff ∨ csOff + PAGE ≤ i → data[i]? = data'[i]?) :
    rootHash data csOff PAGE = rootHash data' csOff PAGE := by
  have hend : csPageEnd csOff PAGE = csOff / PAGE + 1 := by
    have halign : csOff % 4096 = 0 := halign
    rw [csPageEnd, if_pos (by decide)]
    simp only [PAGE]
    omega
  have hpage : pageHash data csOff PAGE = pageHash data' csOff PAGE := by
    funext i
    simp only [pageHash, hlen]
    split
    next => rfl
    next hi =>
      congr 2
      apply List.ext_getElem?
      intro j
      rw [getElem?_window, getElem?_window]
      split
      next hj =>
        refine heq _ ?_
        rw [hend] at hi
        simp only [PAGE, csPageBegin] at *
        omega
      next => rfl
  have hnil : data = [] ↔ data' = [] := by
    rw [← List.length_eq_zero_iff, ← List.length_eq_zero_iff, hlen]
  simp only [rootHash, hpage, hlen, hnil]

end Merkle

namespace Descriptor

def SIZE : Nat := 256
def FLAG_SELF_SIGN : Nat := 0x10
def ELF_SIGN_INFO_TYPE : Nat := 1

/-- The 256-byte descriptor. -/
def build (signSize fileSize : Nat) (rootHash : Bytes) : Bytes :=
  -- version, SHA-256, log2 of the block size, no salt
  let out : Bytes := [1, 1, 12, 0] ++ List.replicate 252 0
  let out := patch out 4 (leBytes 4 signSize)
  let out := patch out 8 (leBytes 8 fileSize)
  let out := patch out 16 rootHash
  let out := patch out 112 (leBytes 4 FLAG_SELF_SIGN)
  patch out 255 [3]

theorem length_blank : ([1, 1, 12, 0] ++ List.replicate 252 (0 : UInt8)).length = SIZE := by
  rw [List.length_append, List.length_replicate]
  rfl

theorem length_build (signSize fileSize : Nat) {root : Bytes} (hroot : root.length = 32) :
    (build signSize fileSize root).length = SIZE := by
  refine length_patch _ _ (length_patch _ _ (length_patch _ _ (length_patch _ _ (length_patch _ _
    length_blank ?_) ?_) ?_) ?_) ?_ <;> simp [SIZE, hroot]

/-- What is read back from a descriptor. -/
theorem window_build (signSize fileSize : Nat) {root : Bytes} (hroot : root.length = 32) :
    window (build signSize fileSize root) 8 8 = leBytes 8 fileSize ∧
      window (build signSize fileSize root) 16 32 = root := by
  have h₁ := length_patch 4 (leBytes 4 signSize) length_blank (by simp [SIZE])
  have h₂ := length_patch 8 (leBytes 8 fileSize) h₁ (by simp [SIZE])
  have h₃ := length_patch 16 root h₂ (by simp [SIZE, hroot])
  have h₄ := length_patch 112 (leBytes 4 FLAG_SELF_SIGN) h₃ (by simp [SIZE])
  have hpost : ∀ {off len}, off + len ≤ 112 →
      window (build signSize fileSize root) off len = window (patch (patch (patch
        ([1, 1, 12, 0] ++ List.replicate 252 0) 4 (leBytes 4 signSize)) 8 (leBytes 8 fileSize))
        16 root) off len := fun hoff => by
    rw [build, window_patch_of_disjoint (by rw [h₄]; simp [SIZE]) (by omega),
      window_patch_of_disjoint (by rw [h₃]; simp [SIZE]) (by omega)]
  constructor
  · rw [hpost (by decide), window_patch_of_disjoint (by rw [h₂]; simp [SIZE, hroot]) (.inl (by decide)),
      window_patch (leBytes_length 8 _) (by rw [h₁]; decide)]
  · rw [hpost (by decide), window_patch hroot (by rw [h₂]; decide)]

/-- The descriptor with another signature size. -/
theorem patch_build (signSize signSize' fileSize : Nat) {root : Bytes} (hroot : root.length = 32) :
    patch (build signSize fileSize root) 4 (leBytes 4 signSize') =
      build signSize' fileSize root := by
  have h₁ := length_patch 4 (leBytes 4 signSize) length_blank (by simp [SIZE])
  have h₂ := length_patch 8 (leBytes 8 fileSize) h₁ (by simp [SIZE])
  have h₃ := length_patch 16 root h₂ (by simp [SIZE, hroot])
  have h₄ := length_patch 112 (leBytes 4 FLAG_SELF_SIGN) h₃ (by simp [SIZE])
  rw [build, patch_comm (o := 255) (by rw [h₄]; simp [SIZE]) (by rw [h₄]; simp [SIZE]) (by simp),
    patch_comm (o := 112) (by rw [h₃]; simp [SIZE]) (by rw [h₃]; simp [SIZE]) (by simp),
    patch_comm (o := 16) (by rw [h₂]; simp [SIZE, hroot]) (by rw [h₂]; simp [SIZE]) (by simp),
    patch_comm (o := 8) (by rw [h₁]; simp [SIZE]) (by rw [h₁]; simp [SIZE]) (by simp),
    patch_patch (by simp) (by rw [length_blank]; simp [SIZE]), build]

end Descriptor

end OhosBun.OhosSign
