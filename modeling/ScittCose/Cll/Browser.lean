import ScittCose.Lib.JsNumber
import ScittCose.Cll.Range

/-!
# The browser's verifier of the checkpointed log (`MMR_JS` in `hosted_profiles/hosted.py`)

A port of the position math and of the three verifiers of `scitt_cose/cll.py`. Its numbers are JavaScript
numbers, so every sum and difference is a `Js.num`; a thrown error is `none`, and a verifier resolves it
to false. Below the largest size nothing is rounded and each function is the library's
(`peaks_eq`, `heightAt_eq`, `locatePath_eq`, ...). The readers of hexadecimal differ: `hexToBytes` refuses
what is not a digit, `bytes.fromhex` skips white space between octets (`parseDigestHex_eq`).
-/

namespace ScittCose.MmrJs

open Js Cll

section Source

/-- `MAX_MMR_SIZE` -/
def maxMmrSize : ℤ := 2 ^ 50

/-- `requireNonNegInt` -/
def requireNonNegInt (n : ℤ) : Option Unit := if 0 ≤ n then some () else none

/-- `/^[0-9a-fA-F]*$/` -/
def isHex (cs : List Char) : Bool := cs.all fun c => (Octets.hexValue c).isSome

/-- The loop of `hexToBytes`: `parseInt` of two digits at a time. -/
def parsePairs : List Char → Octets
  | c :: d :: cs =>
    UInt8.ofNat (16 * (Octets.hexValue c).getD 0 + (Octets.hexValue d).getD 0) :: parsePairs cs
  | _ => []

/-- `hexToBytes`. What has a character outside the basic plane, whose length counts double, is not
hexadecimal anyway. -/
def hexToBytes (hex : String) : Option Octets :=
  if hex.toList.length % 2 ≠ 0 ∨ ¬ isHex hex.toList then none else some (parsePairs hex.toList)

/-- `parseDigestHex` -/
def parseDigestHex (h : String) : Option Octets := do
  let b ← hexToBytes h
  if b.length ≠ digestLen then none else some b

/-- The loop of `beU64`, from the last octet on. -/
def beLoop : ℕ → ℤ → Octets
  | 0, _ => []
  | i + 1, v => beLoop i (v / 256) ++ [UInt8.ofNat (v % 256).toNat]

/-- `beU64` -/
def beU64 (n : ℤ) : Octets := beLoop 8 n

/-- The loop of `popcount`; `fuel` bounds its rounds. -/
def popcountLoop : ℕ → ℤ → ℤ → ℤ
  | 0, _, c => c
  | fuel + 1, n, c =>
    if 0 < n then popcountLoop fuel (n / 2) (num (c + if n % 2 = 1 then 1 else 0)) else c

/-- `popcount` -/
def popcount (n : ℤ) : ℤ := popcountLoop n.toNat n 0

/-- The first loop of `heightAt`; `fuel` bounds its rounds. -/
def growHeight (pos1 : ℤ) : ℕ → ℕ → ℕ
  | 0, h => h
  | fuel + 1, h => if num (2 ^ (h + 1) - 1) < pos1 then growHeight pos1 fuel (h + 1) else h

/-- The second loop of `heightAt`. -/
def descendHeight : ℕ → ℤ → ℕ
  | 0, _ => 0
  | h + 1, pos1 =>
    if pos1 = num (2 ^ (h + 2) - 1) then h + 1
    else
      let leftSize := num (2 ^ (h + 1) - 1)
      descendHeight h (if leftSize < pos1 then num (pos1 - leftSize) else pos1)

/-- `heightAt` -/
def heightAt (pos : ℤ) : Option ℕ := do
  requireNonNegInt pos
  let pos1 := num (pos + 1)
  return descendHeight (growHeight pos1 pos1.toNat 0) pos1

/-- `nodeCount` -/
def nodeCount (leafCount : ℤ) : Option ℤ := do
  requireNonNegInt leafCount
  return num (num (2 * leafCount) - popcount leafCount)

/-- The inner loop of `peaks`; `fuel` bounds its rounds. -/
def peakHeight (remaining : ℤ) : ℕ → ℕ → ℕ
  | 0, h => h
  | fuel + 1, h => if num (2 ^ (h + 2) - 1) ≤ remaining then peakHeight remaining fuel (h + 1) else h

/-- The outer loop of `peaks`. No previous height is an infinite one. -/
def peaksLoop : ℕ → ℤ → ℤ → Option ℕ → Option (List ℤ)
  | 0, _, _, _ => some []
  | fuel + 1, remaining, offset, prevHeight =>
    if 0 < remaining then
      let h := peakHeight remaining remaining.toNat 0
      if prevHeight.any fun prev => prev ≤ h then none
      else
        let mSize := num (2 ^ (h + 1) - 1)
        let offset := num (offset + mSize)
        (peaksLoop fuel (num (remaining - mSize)) offset (some h)).map
          fun result => num (offset - 1) :: result
    else some []

/-- `peaks` -/
def peaks (size : ℤ) : Option (List ℤ) :=
  if ¬ 0 ≤ size ∨ maxMmrSize ≤ size then none else peaksLoop size.toNat size 0 none

/-- `leafCountFromSize` -/
def leafCountFromSize (size : ℤ) : Option ℤ := do
  let pks ← peaks size
  pks.foldlM (fun total p => (heightAt p).map fun h => num (total + 2 ^ h)) 0

/-- `leafIndexToPos` -/
def leafIndexToPos (leafIndex : ℤ) : Option ℤ := do
  requireNonNegInt leafIndex
  let pos ← nodeCount leafIndex
  if maxMmrSize ≤ pos then none else some pos

/-- `findContainingPeak`, from an index on; `some none` is `-1`. -/
def findContainingPeak (pos : ℤ) : List ℤ → ℕ → Option (Option ℕ)
  | [], _ => some none
  | peakPos :: peakPositions, i => do
    let h ← heightAt peakPos
    let mSize := num (2 ^ (h + 1) - 1)
    let start := num (num (peakPos - mSize) + 1)
    if start ≤ pos ∧ pos ≤ peakPos then return some i
    findContainingPeak pos peakPositions (i + 1)

/-- A step of `locatePath`. -/
structure PathStep where
  siblingPos : ℤ
  targetIsRight : Bool
  parentPos : ℤ

/-- The loop of `locatePath`, top down. -/
def locateDown (targetPos : ℤ) : ℕ → ℤ → List PathStep
  | 0, _ => []
  | h + 1, curRoot =>
    if curRoot = targetPos then []
    else
      let leftSize := num (2 ^ (h + 1) - 1)
      let leftChildRoot := num (num (curRoot - leftSize) - 1)
      let rightChildRoot := num (curRoot - 1)
      if targetPos ≤ leftChildRoot then
        ⟨rightChildRoot, false, curRoot⟩ :: locateDown targetPos h leftChildRoot
      else ⟨leftChildRoot, true, curRoot⟩ :: locateDown targetPos h rightChildRoot

/-- `locatePath` -/
def locatePath (rootPos : ℤ) (height : ℕ) (targetPos : ℤ) : List PathStep :=
  (locateDown targetPos height rootPos).reverse

variable (H : Hash)

/-- `leafHash` -/
def leafHash (bodyDigest : Octets) : Option Octets := do
  assertDigest bodyDigest
  return H.digest ([0x00] ++ bodyDigest)

/-- `interiorHash` -/
def interiorHash (left right : Octets) (position : ℤ) : Option Octets := do
  assertDigest left
  assertDigest right
  requireNonNegInt position
  return H.digest (beU64 (num (position + 1)) ++ left ++ right)

/-- The loop of `rootFromPeaks`: `right` is the last of the hashes, the others stand last first. -/
def bagLoop (right : Octets) : List Octets → Octets
  | [] => right
  | left :: hashes => bagLoop (H.digest (right ++ left)) hashes

/-- `rootFromPeaks` -/
def rootFromPeaks (peakHashes : List Octets) : Option Octets :=
  match peakHashes.reverse with
  | [] => some (List.replicate digestLen 0)
  | right :: hashes =>
    if ∀ p ∈ peakHashes, p.length = digestLen then some (bagLoop H right hashes) else none

/-- One step of the folds. -/
def climb (acc : Octets) (step : PathStep × Octets) : Option Octets :=
  if step.1.targetIsRight then interiorHash H step.2 acc step.1.parentPos
  else interiorHash H acc step.2 step.1.parentPos

/-- The body of `verifyInclusion`. -/
def inclusionBody (rootHex : String) (size leafIndex : ℤ) (bodyDigestHex : String)
    (proof : InclusionProof) : Option Bool := do
  let root ← hexToBytes rootHex
  let bodyDigest ← hexToBytes bodyDigestHex
  assertDigest root
  assertDigest bodyDigest
  if proof.v ≠ 1 ∨ proof.kind ≠ "inclusion" then return false
  if proof.size ≠ size ∨ proof.leafIndex ≠ leafIndex then return false
  if ¬ 0 ≤ size ∨ maxMmrSize ≤ size then return false
  if ¬ 0 ≤ leafIndex then return false
  let lc ← leafCountFromSize size
  if lc ≤ leafIndex then return false
  let leafPos ← leafIndexToPos leafIndex
  let pks ← peaks size
  let containing ← findContainingPeak leafPos pks 0
  match containing with
  | none => return false
  | some peakIdx =>
    let peakPos ← pks[peakIdx]?
    let peakHeight ← heightAt peakPos
    let path := locatePath peakPos peakHeight leafPos
    if proof.witness.length ≠ path.length then return false
    if proof.peaksLeft.length ≠ peakIdx then return false
    if (proof.peaksRight.length : ℤ) ≠ num (num ((pks.length : ℤ) - (peakIdx : ℕ)) - 1) then return false
    let witnessBytes ← proof.witness.mapM parseDigestHex
    let peaksLeftBytes ← proof.peaksLeft.mapM parseDigestHex
    let peaksRightBytes ← proof.peaksRight.mapM parseDigestHex
    let leaf ← leafHash H bodyDigest
    let acc ← (path.zip witnessBytes).foldlM (climb H) leaf
    let computedRoot ← rootFromPeaks H (peaksLeftBytes ++ acc :: peaksRightBytes)
    return computedRoot = root

/-- `verifyInclusion` -/
def verifyInclusion (rootHex : String) (size leafIndex : ℤ) (bodyDigestHex : String)
    (proof : InclusionProof) : Bool :=
  (inclusionBody H rootHex size leafIndex bodyDigestHex proof).getD false

/-- The loop of `verifyConsistency` over the old peaks. -/
def oldPeaksLoop (newPeakPositions : List ℤ) (newPeaksBytes : List Octets) :
    List ℤ → List Octets → List (List String) → Option Bool
  | p :: ps, old :: olds, w :: ws => do
    let containing ← findContainingPeak p newPeakPositions 0
    match containing with
    | none => return false
    | some containingIdx =>
      let newPeakPos ← newPeakPositions[containingIdx]?
      let newPeakHeight ← heightAt newPeakPos
      let path := locatePath newPeakPos newPeakHeight p
      if w.length ≠ path.length then return false
      let wBytes ← w.mapM parseDigestHex
      let acc ← (path.zip wBytes).foldlM (climb H) old
      if newPeaksBytes[containingIdx]? ≠ some acc then return false
      oldPeaksLoop newPeakPositions newPeaksBytes ps olds ws
  | _, _, _ => some true

/-- The body of `verifyConsistency`. -/
def consistencyBody (rootAHex : String) (sizeA : ℤ) (rootBHex : String) (sizeB : ℤ)
    (proof : ConsistencyProof) : Option Bool := do
  let rootA ← hexToBytes rootAHex
  let rootB ← hexToBytes rootBHex
  assertDigest rootA
  assertDigest rootB
  if proof.v ≠ 1 ∨ proof.kind ≠ "consistency" then return false
  if proof.sizeA ≠ sizeA ∨ proof.sizeB ≠ sizeB then return false
  if ¬ 0 ≤ sizeA then return false
  if ¬ 0 ≤ sizeB ∨ sizeB < sizeA then return false
  let oldPeakPositions ← peaks sizeA
  let newPeakPositions ← peaks sizeB
  if proof.oldPeaks.length ≠ oldPeakPositions.length then return false
  if proof.newPeaks.length ≠ newPeakPositions.length then return false
  if proof.witness.length ≠ oldPeakPositions.length then return false
  let oldPeaksBytes ← proof.oldPeaks.mapM parseDigestHex
  let newPeaksBytes ← proof.newPeaks.mapM parseDigestHex
  let computedRootA ← rootFromPeaks H oldPeaksBytes
  if computedRootA ≠ rootA then return false
  let computedRootB ← rootFromPeaks H newPeaksBytes
  if computedRootB ≠ rootB then return false
  oldPeaksLoop H newPeakPositions newPeaksBytes oldPeakPositions oldPeaksBytes proof.witness

/-- `verifyConsistency` -/
def verifyConsistency (rootAHex : String) (sizeA : ℤ) (rootBHex : String) (sizeB : ℤ)
    (proof : ConsistencyProof) : Bool :=
  (consistencyBody H rootAHex sizeA rootBHex sizeB proof).getD false

/-- `bodyDigestsByIndex`, whose keys are below the largest size. -/
def digestsByIndex (fromIndex : ℤ) (bodyDigests : List Octets) (i : ℤ) : Option Octets :=
  if i < fromIndex then none else bodyDigests[(i - fromIndex).toNat]?

/-- `reconstructRangeSubtree`: the hash and the witnesses that are left, the cursor being how many were
taken. -/
def reconstructRangeSubtree (lo hi : ℤ) (bodyDigestsByIndex : ℤ → Option Octets) :
    ℤ → ℕ → ℤ → List Octets → Option (Octets × List Octets)
  | pos, height, leafStart, witnessBytes =>
    let leafEnd := num (num (leafStart + 2 ^ height) - 1)
    if leafEnd < lo ∨ hi < leafStart then
      match witnessBytes with
      | [] => none
      | w :: rest => some (w, rest)
    else match height with
      | 0 => do
        let d ← bodyDigestsByIndex leafStart
        let leaf ← leafHash H d
        return (leaf, witnessBytes)
      | h + 1 => do
        let half : ℤ := 2 ^ h
        let (left, rest) ← reconstructRangeSubtree lo hi bodyDigestsByIndex (num (pos - 2 ^ (h + 1))) h
          leafStart witnessBytes
        let (right, rest) ← reconstructRangeSubtree lo hi bodyDigestsByIndex (num (pos - 1)) h
          (num (leafStart + half)) rest
        let hash ← interiorHash H left right pos
        return (hash, rest)

/-- The loop of `verifyRange` over the peaks. -/
def reconstructPeaks (lo hi : ℤ) (bodyDigestsByIndex : ℤ → Option Octets) :
    List ℤ → ℤ → List Octets → Option (List Octets × List Octets)
  | [], _, witnessBytes => some ([], witnessBytes)
  | p :: pks, leafStart, witnessBytes => do
    let h ← heightAt p
    let (peak, rest) ← reconstructRangeSubtree H lo hi bodyDigestsByIndex p h leafStart witnessBytes
    let (reconstructed, rest) ← reconstructPeaks lo hi bodyDigestsByIndex pks (num (leafStart + 2 ^ h)) rest
    return (peak :: reconstructed, rest)

/-- The body of `verifyRange`. -/
def rangeBody (rootHex : String) (fromSeq toSeq : ℤ) (bodyDigestHexes : List String)
    (proof : RangeProof) : Option Bool := do
  let root ← hexToBytes rootHex
  assertDigest root
  if proof.fromSeq ≠ fromSeq ∨ proof.toSeq ≠ toSeq then return false
  if fromSeq < 1 ∨ toSeq < fromSeq then return false
  let lc ← leafCountFromSize proof.size
  if lc ≠ toSeq then return false
  if proof.fromIndex ≠ num (fromSeq - 1) ∨ proof.toIndex ≠ num (toSeq - 1) then return false
  if (bodyDigestHexes.length : ℤ) ≠ num (num (proof.toIndex - proof.fromIndex) + 1) then return false
  let bodyDigests ← bodyDigestHexes.mapM fun hex => do
    let d ← hexToBytes hex
    assertDigest d
    return d
  let witnessBytes ← proof.witness.mapM parseDigestHex
  let pks ← peaks proof.size
  let (reconstructedPeaks, rest) ← reconstructPeaks H proof.fromIndex proof.toIndex
    (digestsByIndex proof.fromIndex bodyDigests) pks 0 witnessBytes
  if rest ≠ [] then return false
  let computedRoot ← rootFromPeaks H reconstructedPeaks
  return computedRoot = root

/-- `verifyRange` -/
def verifyRange (rootHex : String) (fromSeq toSeq : ℤ) (bodyDigestHexes : List String)
    (proof : RangeProof) : Bool :=
  (rangeBody H rootHex fromSeq toSeq bodyDigestHexes proof).getD false

end Source

open Mmr (pos)

/-! ## Hexadecimal -/

theorem fromHexPairs_eq (cs : List Char) :
    Octets.fromHexPairs cs = if cs.length % 2 ≠ 0 ∨ ¬ isHex cs then none else some (parsePairs cs) := by
  induction cs using Octets.fromHexPairs.induct with
  | case1 => rfl
  | case2 c => rfl
  | case3 c d ds ih =>
      have hlen : (c :: d :: ds).length % 2 = ds.length % 2 := by
        rw [List.length_cons, List.length_cons]
        omega
      have hhex : isHex (c :: d :: ds) =
          ((Octets.hexValue c).isSome && ((Octets.hexValue d).isSome && isHex ds)) := rfl
      rw [Octets.fromHexPairs, ih, hlen, hhex, parsePairs]
      rcases Octets.hexValue c with _ | x
      · simp
      · rcases Octets.hexValue d with _ | y
        · simp
        · by_cases hds : ds.length % 2 = 1 ∨ isHex ds = false
          · simp [hds]
          · simp [hds]

/-- `hexToBytes` reads digit pairs and nothing else. -/
theorem hexToBytes_eq (hex : String) : hexToBytes hex = Octets.fromHexStrict hex :=
  (fromHexPairs_eq hex.toList).symm

/-- An entry with white space in it. -/
def Spaced (s : String) : Prop := s.toList.any Octets.isAsciiSpace = true

instance decidableSpaced (s : String) : Decidable (Spaced s) :=
  inferInstanceAs (Decidable (_ = true))

theorem hexValue_of_isAsciiSpace {c : Char} (h : Octets.isAsciiSpace c = true) :
    Octets.hexValue c = none := by
  rcases hv : Octets.hexValue c with _ | n
  · rfl
  · rw [Octets.not_isAsciiSpace_of_hexValue hv] at h
    cases h

theorem fromHexPairs_eq_fromHexChars (cs : List Char) :
    Octets.fromHexPairs cs =
      if cs.any Octets.isAsciiSpace = true then none else Octets.fromHexChars cs := by
  induction cs using Octets.fromHexPairs.induct with
  | case1 => rfl
  | case2 c =>
      by_cases hc : Octets.isAsciiSpace c
      · simp [hc, Octets.fromHexPairs]
      · simp [hc, Octets.fromHexPairs, Octets.fromHexChars]
  | case3 c d ds ih =>
      rw [Octets.fromHexPairs, ih]
      by_cases hc : Octets.isAsciiSpace c
      · simp [hc, hexValue_of_isAsciiSpace hc]
      · by_cases hd : Octets.isAsciiSpace d
        · simp [hd, hexValue_of_isAsciiSpace hd]
        · by_cases hds : ds.any Octets.isAsciiSpace = true
          · simp [hds, hc, hd]
          · rw [Octets.fromHexChars]
            simp [hds, hc, hd]

/-- The browser's reader of digests is the library's on entries without white space. -/
theorem parseDigestHex_eq (s : String) :
    parseDigestHex s = if Spaced s then none else Cll.parseDigestHex s := by
  unfold parseDigestHex Cll.parseDigestHex
  rw [hexToBytes_eq, Octets.fromHexStrict, fromHexPairs_eq_fromHexChars]
  unfold Octets.fromHex Spaced
  by_cases h : s.toList.any Octets.isAsciiSpace = true
  · simp [h]
  · simp [h]

/-! ## Numbers -/

theorem beLoop_eq (i n : ℕ) : beLoop i n = Octets.ofNat i n := by
  induction i generalizing n with
  | zero => rfl
  | succ i ih =>
      have hdiv : (n : ℤ) / 256 = ((n / 256 : ℕ) : ℤ) := by omega
      have hmod : ((n : ℤ) % 256).toNat = n % 256 := by omega
      have hoctet : UInt8.ofNat (n % 256) = UInt8.ofNat n := UInt8.toNat_inj.mp (by simp)
      rw [beLoop, hdiv, ih, hmod, hoctet]
      rfl

theorem popcountLoop_eq {fuel n c : ℕ} (hfuel : n ≤ fuel) (hc : c + n < 2 ^ 53) :
    popcountLoop fuel n c = ((c + Mmr.popcount n : ℕ) : ℤ) := by
  induction fuel generalizing n c with
  | zero =>
      obtain rfl : n = 0 := by omega
      rw [Mmr.popcount_zero]
      rfl
  | succ fuel ih =>
      unfold popcountLoop
      rcases Nat.eq_zero_or_pos n with rfl | hn
      · rw [Mmr.popcount_zero]
        rfl
      · have hdiv : (n : ℤ) / 2 = ((n / 2 : ℕ) : ℤ) := by omega
        have hstep : num (c + if (n : ℤ) % 2 = 1 then 1 else 0) = ((c + n % 2 : ℕ) : ℤ) := by
          split_ifs
          · rw [num_eq (by omega) (by omega)]
            omega
          · rw [num_eq (by omega) (by omega)]
            omega
        rw [if_pos (by omega), hdiv, hstep, ih (by omega) (by omega), Mmr.popcount_eq n]
        omega

theorem nodeCount_eq {n : ℕ} (hn : n ≤ 2 ^ 50) : nodeCount n = some (Mmr.nodeCount n : ℤ) := by
  have hpop : popcount n = (Mmr.popcount n : ℤ) := by
    unfold popcount
    rw [Int.toNat_natCast, show (0 : ℤ) = ((0 : ℕ) : ℤ) from rfl,
      popcountLoop_eq le_rfl (by omega), Nat.zero_add]
  have hle := Mmr.popcount_le n
  unfold nodeCount requireNonNegInt Mmr.nodeCount
  rw [if_pos (by omega), hpop, num_eq (show -2 ^ 53 < 2 * (n : ℤ) by omega) (by omega),
    num_eq (by omega) (by omega)]
  exact congrArg some (by omega)

/-- A power of two less one, below the safe integers. -/
theorem num_pow_sub_one {h : ℕ} (hh : h ≤ 52) : num (2 ^ h - 1) = ((2 ^ h - 1 : ℕ) : ℤ) := by
  have hle : 2 ^ h ≤ 2 ^ 52 := Nat.pow_le_pow_right (by omega) hh
  have hpos := Nat.two_pow_pos h
  have hcast : (2 : ℤ) ^ h = ((2 ^ h : ℕ) : ℤ) := by norm_cast
  rw [hcast, num_eq (by omega) (by omega)]
  omega

theorem growHeight_eq {pos1 fuel h : ℕ} (hpos : pos1 ≤ 2 ^ 51) (hh : h ≤ 51) :
    growHeight pos1 fuel h = Cll.growHeight pos1 fuel h ∧ growHeight pos1 fuel h ≤ 51 := by
  induction fuel generalizing h with
  | zero => exact ⟨rfl, hh⟩
  | succ fuel ih =>
      unfold growHeight Cll.growHeight
      rw [num_pow_sub_one (by omega)]
      by_cases hlt : 2 ^ (h + 1) - 1 < pos1
      · rw [if_pos hlt, if_pos (by exact_mod_cast hlt)]
        apply ih
        by_contra hge
        have : 2 ^ 52 ≤ 2 ^ (h + 1) := Nat.pow_le_pow_right (by omega) (by omega)
        omega
      · rw [if_neg hlt, if_neg (by exact_mod_cast hlt)]
        exact ⟨rfl, hh⟩

theorem descendHeight_eq {h pos1 : ℕ} (hh : h ≤ 51) (hpos : pos1 ≤ 2 ^ 51) :
    descendHeight h pos1 = Cll.descendHeight h pos1 := by
  induction h generalizing pos1 with
  | zero => rfl
  | succ h ih =>
      unfold descendHeight Cll.descendHeight
      rw [num_pow_sub_one (show h + 2 ≤ 52 by omega), num_pow_sub_one (show h + 1 ≤ 52 by omega)]
      dsimp only
      by_cases htop : pos1 = 2 ^ (h + 2) - 1
      · rw [if_pos htop, if_pos (by exact_mod_cast htop)]
      · rw [if_neg htop, if_neg (by exact_mod_cast htop)]
        by_cases hlt : 2 ^ (h + 1) - 1 < pos1
        · have hsub : num ((pos1 : ℤ) - ((2 ^ (h + 1) - 1 : ℕ) : ℤ)) =
              ((pos1 - (2 ^ (h + 1) - 1) : ℕ) : ℤ) := by
            rw [num_eq (by omega) (by omega)]
            omega
          rw [if_pos hlt, if_pos (by exact_mod_cast hlt), hsub]
          exact ih (by omega) (by omega)
        · rw [if_neg hlt, if_neg (by exact_mod_cast hlt)]
          exact ih (by omega) hpos

theorem heightAt_eq {p : ℕ} (hp : p < 2 ^ 50) : heightAt p = some (Cll.heightAt p) := by
  have hsucc : num ((p : ℤ) + 1) = ((p + 1 : ℕ) : ℤ) := by
    rw [num_eq (by omega) (by omega)]
    rfl
  obtain ⟨hgrow, hle⟩ := @growHeight_eq (p + 1) (p + 1) 0 (by omega) (by omega)
  unfold heightAt requireNonNegInt Cll.heightAt
  rw [if_pos (by omega), hsucc]
  dsimp only [Option.bind_eq_bind, Option.bind_some, Option.pure_def]
  rw [Int.toNat_natCast, descendHeight_eq hle (by omega), hgrow]

/-! ## Positions -/

theorem peakHeight_eq {remaining fuel h : ℕ} (hrem : remaining ≤ 2 ^ 50) (hh : h ≤ 50) :
    peakHeight remaining fuel h = Cll.peakHeight remaining fuel h := by
  induction fuel generalizing h with
  | zero => rfl
  | succ fuel ih =>
      unfold peakHeight Cll.peakHeight
      rw [num_pow_sub_one (by omega)]
      by_cases hle : 2 ^ (h + 2) - 1 ≤ remaining
      · rw [if_pos hle, if_pos (by exact_mod_cast hle)]
        apply ih
        by_contra hge
        have : 2 ^ 52 ≤ 2 ^ (h + 2) := Nat.pow_le_pow_right (by omega) (by omega)
        omega
      · rw [if_neg hle, if_neg (by exact_mod_cast hle)]

theorem peaksLoop_eq {fuel remaining offset : ℕ} {prev : Option ℕ}
    (hsum : remaining + offset ≤ 2 ^ 50) :
    peaksLoop fuel remaining offset prev =
      (Cll.peaksLoop fuel remaining offset prev).map (List.map Nat.cast) := by
  induction fuel generalizing remaining offset prev with
  | zero => rfl
  | succ fuel ih =>
      rcases Nat.eq_zero_or_pos remaining with rfl | hpos
      · rfl
      · obtain ⟨h, hlo, hhi⟩ := exists_height (Nat.pos_iff_ne_zero.mp hpos)
        have hh : h ≤ 51 := by
          by_contra hge
          have : 2 ^ 52 ≤ 2 ^ (h + 1) := Nat.pow_le_pow_right (by omega) (by omega)
          omega
        have hpow := Nat.two_pow_pos h
        have hpow' : 2 ^ (h + 1) = 2 * 2 ^ h := pow_succ' 2 h
        have hheight : Cll.peakHeight remaining remaining 0 = h := by
          have hfuel : h < 2 ^ h := Nat.lt_two_pow_self
          exact Cll.peakHeight_eq hlo hhi (Nat.zero_le _) (by omega)
        rw [peaksLoop_step hlo hhi, peaksLoop, if_pos (by omega), Int.toNat_natCast,
          peakHeight_eq (by omega) (Nat.zero_le _), hheight]
        dsimp only
        split_ifs
        · rfl
        · have hoffset : num ((offset : ℤ) + ((2 ^ (h + 1) - 1 : ℕ) : ℤ)) =
              ((offset + (2 ^ (h + 1) - 1) : ℕ) : ℤ) := by
            rw [num_eq (by omega) (by omega)]
            omega
          have hremaining : num ((remaining : ℤ) - ((2 ^ (h + 1) - 1 : ℕ) : ℤ)) =
              ((remaining - (2 ^ (h + 1) - 1) : ℕ) : ℤ) := by
            rw [num_eq (by omega) (by omega)]
            omega
          have hlast : num (((offset + (2 ^ (h + 1) - 1) : ℕ) : ℤ) - 1) =
              ((offset + (2 ^ (h + 1) - 1) - 1 : ℕ) : ℤ) := by
            rw [num_eq (by omega) (by omega)]
            omega
          rw [num_pow_sub_one (by omega), hoffset, hremaining, hlast, ih (by omega), Option.map_map,
            Option.map_map]
          rfl

theorem peaks_eq (size : ℤ) : peaks size = (Cll.peaks size).map (List.map Nat.cast) := by
  unfold peaks Cll.peaks
  by_cases h : size < 0 ∨ Cll.maxMmrSize ≤ size
  · rw [if_pos h, if_pos (by rwa [not_le])]
    rfl
  · rw [if_neg h, if_neg (by rwa [not_le])]
    obtain ⟨n, rfl⟩ := Int.eq_ofNat_of_zero_le (not_lt.mp fun hlt => h (Or.inl hlt))
    have hn : (n : ℤ) < 2 ^ 50 := not_le.mp fun hle => h (Or.inr hle)
    have hloop := @peaksLoop_eq n n 0 none (by omega)
    rw [Int.toNat_natCast]
    exact hloop

theorem peaks_nodeCount {f : ℕ} (hmax : (Mmr.nodeCount f : ℤ) < Cll.maxMmrSize) :
    peaks (Mmr.nodeCount f) = some (((Mmr.mountains f).map peakPos).map Nat.cast) := by
  rw [peaks_eq, Cll.peaks_nodeCount hmax]
  rfl

theorem peakPos_lt {f : ℕ} (hmax : (Mmr.nodeCount f : ℤ) < Cll.maxMmrSize) {p : ℕ × ℕ}
    (hp : p ∈ Mmr.mountains f) : peakPos p < 2 ^ 50 := by
  have := Mmr.pos_lt_nodeCount hp
  unfold Cll.maxMmrSize at hmax
  unfold peakPos
  omega

theorem heightAt_peakPos {f : ℕ} (hmax : (Mmr.nodeCount f : ℤ) < Cll.maxMmrSize) {p : ℕ × ℕ}
    (hp : p ∈ Mmr.mountains f) : heightAt (peakPos p) = some p.1 := by
  rw [heightAt_eq (peakPos_lt hmax hp), Cll.heightAt_peakPos hp]

/-- The sum of the leaves of some of the trees of a range. -/
theorem foldlM_leaves {f : ℕ} (hmax : (Mmr.nodeCount f : ℤ) < Cll.maxMmrSize) {ps : List (ℕ × ℕ)}
    (hps : ∀ p ∈ ps, p ∈ Mmr.mountains f) {total : ℕ}
    (hsum : total + (ps.map fun p => 2 ^ p.1).sum < 2 ^ 53) :
    ((ps.map peakPos).map (Nat.cast : ℕ → ℤ)).foldlM
        (fun total p => (heightAt p).map fun h => num (total + 2 ^ h)) (total : ℤ) =
      some ((total + (ps.map fun p => 2 ^ p.1).sum : ℕ) : ℤ) := by
  induction ps generalizing total with
  | nil => rfl
  | cons p ps ih =>
      rw [List.map_cons, List.sum_cons] at hsum
      have hstep : num ((total : ℤ) + 2 ^ p.1) = ((total + 2 ^ p.1 : ℕ) : ℤ) := by
        have hcast : (total : ℤ) + 2 ^ p.1 = ((total + 2 ^ p.1 : ℕ) : ℤ) := by push_cast; rfl
        rw [hcast, num_natCast (by omega)]
      rw [List.map_cons, List.map_cons, List.foldlM_cons, heightAt_peakPos hmax (hps p List.mem_cons_self),
        Option.map_some, hstep]
      show List.foldlM _ _ _ = _
      rw [ih (fun q hq => hps q (List.mem_cons_of_mem _ hq)) (by omega), List.map_cons, List.sum_cons,
        Nat.add_assoc]

theorem leafCountFromSize_eq (size : ℤ) :
    leafCountFromSize size = (leafCount size).map Nat.cast := by
  unfold leafCountFromSize
  rw [peaks_eq]
  rcases hpks : Cll.peaks size with _ | pks
  · unfold leafCount
    rw [hpks]
    rfl
  · obtain ⟨f, rfl, hmax, rfl⟩ := peaks_eq_some_iff.mp hpks
    have hcount : leafCount (Mmr.nodeCount f) = some f := leafCount_eq_some_iff.mpr ⟨rfl, hmax⟩
    have hf : f ≤ Mmr.nodeCount f := Mmr.nodeCount_strictMono.le_apply
    have hsum : ((Mmr.mountains f).map fun p => 2 ^ p.1).sum = f := sum_mountainsFrom 0 f
    have hfold := @foldlM_leaves f hmax (Mmr.mountains f) (fun p hp => hp) 0 (by
      rw [hsum]
      unfold Cll.maxMmrSize at hmax
      omega)
    rw [hsum, Nat.zero_add] at hfold
    rw [hcount]
    exact hfold

theorem leafIndexToPos_eq {i : ℕ} (hi : i ≤ 2 ^ 50) :
    leafIndexToPos i = (Cll.leafIndexToPos i).map Nat.cast := by
  unfold leafIndexToPos Cll.leafIndexToPos requireNonNegInt
  rw [if_pos (by omega), nodeCount_eq hi, if_neg (by omega), Int.toNat_natCast]
  dsimp only [Option.bind_eq_bind, Option.bind_some]
  unfold maxMmrSize Cll.maxMmrSize
  split_ifs
  · rfl
  · rfl

theorem findContainingPeak_eq {p i : ℕ} {pks : List ℕ} (hpks : ∀ q ∈ pks, q < 2 ^ 50) :
    findContainingPeak p (pks.map Nat.cast) i =
      some ((Cll.findContainingPeak p pks).map (· + i)) := by
  induction pks generalizing i with
  | nil => rfl
  | cons q pks ih =>
      have hq := hpks q List.mem_cons_self
      have hheight : Cll.heightAt q ≤ 51 := by
        obtain ⟨hgrow, hle⟩ := @growHeight_eq (q + 1) (q + 1) 0 (by omega) (by omega)
        have hdesc : ∀ h pos1, Cll.descendHeight h pos1 ≤ h := by
          intro h
          induction h with
          | zero => exact fun _ => le_rfl
          | succ h ih =>
              intro pos1
              unfold Cll.descendHeight
              split_ifs
              · exact le_rfl
              · exact (ih _).trans (Nat.le_succ h)
        exact (hdesc _ _).trans (hgrow ▸ hle)
      have hpow : 2 ^ (Cll.heightAt q + 1) ≤ 2 ^ 52 := Nat.pow_le_pow_right (by omega) (by omega)
      have hstart : num (num ((q : ℤ) - ((2 ^ (Cll.heightAt q + 1) - 1 : ℕ) : ℤ)) + 1) =
          (q : ℤ) - ((2 ^ (Cll.heightAt q + 1) - 1 : ℕ) : ℤ) + 1 := by
        rw [num_eq (show -2 ^ 53 < (q : ℤ) - ((2 ^ (Cll.heightAt q + 1) - 1 : ℕ) : ℤ) by omega)
          (by omega), num_eq (by omega) (by omega)]
      rw [List.map_cons, findContainingPeak, heightAt_eq hq]
      dsimp only [Option.bind_eq_bind, Option.bind_some]
      rw [num_pow_sub_one (by omega), hstart, ih fun r hr => hpks r (List.mem_cons_of_mem _ hr)]
      unfold Cll.findContainingPeak
      rw [List.findIdx?_cons]
      by_cases hin : (q : ℤ) - ((2 ^ (Cll.heightAt q + 1) - 1 : ℕ) : ℤ) + 1 ≤ (p : ℤ) ∧ (p : ℤ) ≤ (q : ℤ)
      · have hin' : p ≤ q := by omega
        rw [if_pos hin, if_pos (by simpa [hin'] using hin.1)]
        simp
      · rw [if_neg hin, if_neg (by
          rw [decide_eq_true_eq]
          exact fun h => hin ⟨h.1, by exact_mod_cast h.2⟩), Option.map_map]
        refine congrArg some (congrArg (fun g => Option.map g _) ?_)
        funext k
        exact (by omega : k + (i + 1) = k + 1 + i)

/-- A step of the library as one of the browser. -/
def stepOf (step : Cll.PathStep) : PathStep :=
  ⟨step.siblingPos, step.targetIsRight, step.parentPos⟩

theorem locateDown_eq {t h root : ℕ} (hroot : root < 2 ^ 50) (hlow : 2 ^ (h + 1) ≤ root + 2) :
    locateDown t h root = (Cll.locateDown t h root).map stepOf := by
  induction h generalizing root with
  | zero => rfl
  | succ h ih =>
      have hpow : 2 ^ (h + 2) = 2 * 2 ^ (h + 1) := pow_succ' 2 (h + 1)
      have hpos := Nat.two_pow_pos (h + 1)
      have hh : h + 1 ≤ 52 := by
        by_contra hge
        have : 2 ^ 53 ≤ 2 ^ (h + 1) := Nat.pow_le_pow_right (by omega) (by omega)
        omega
      have hleft : num (num ((root : ℤ) - ((2 ^ (h + 1) - 1 : ℕ) : ℤ)) - 1) =
          ((root - (2 ^ (h + 1) - 1) - 1 : ℕ) : ℤ) := by
        rw [num_eq (show -2 ^ 53 < (root : ℤ) - ((2 ^ (h + 1) - 1 : ℕ) : ℤ) by omega) (by omega),
          num_eq (by omega) (by omega)]
        omega
      have hright : num ((root : ℤ) - 1) = ((root - 1 : ℕ) : ℤ) := by
        rw [num_eq (by omega) (by omega)]
        omega
      unfold locateDown Cll.locateDown
      rw [num_pow_sub_one hh, hright]
      dsimp only
      rw [hleft]
      by_cases hsame : root = t
      · rw [if_pos hsame, if_pos (by exact_mod_cast hsame)]
        rfl
      · rw [if_neg hsame, if_neg (by exact_mod_cast hsame)]
        by_cases hle : t ≤ root - (2 ^ (h + 1) - 1) - 1
        · rw [if_pos hle, if_pos (by exact_mod_cast hle), ih (by omega) (by omega)]
          rfl
        · rw [if_neg hle, if_neg (by exact_mod_cast hle), ih (by omega) (by omega)]
          rfl

theorem locatePath_eq {t h root : ℕ} (hroot : root < 2 ^ 50) (hlow : 2 ^ (h + 1) ≤ root + 2) :
    locatePath root h t = (Cll.locatePath root h t).map stepOf := by
  unfold locatePath Cll.locatePath
  rw [locateDown_eq hroot hlow, List.map_reverse]

/-! ## Hashes -/

variable {H : Hash}

theorem interiorHash_eq {l r : Octets} {p : ℕ} (hp : p < 2 ^ 50) :
    interiorHash H l r p = Cll.interiorHash H l r p := by
  have hsucc : num ((p : ℤ) + 1) = ((p + 1 : ℕ) : ℤ) := by
    rw [num_eq (by omega) (by omega)]
    rfl
  have hbe : beU64 ((p + 1 : ℕ) : ℤ) = Octets.ofNat 8 (p + 1) := beLoop_eq 8 (p + 1)
  unfold interiorHash Cll.interiorHash requireNonNegInt
  rw [hsucc, hbe, if_pos (by omega), if_pos (by omega)]
  rfl

theorem bagLoop_eq (right : Octets) (hashes : List Octets) :
    bagLoop H right hashes = Cll.bagLoop H right hashes := by
  induction hashes generalizing right with
  | nil => rfl
  | cons left hashes ih => exact ih _

theorem rootFromPeaks_eq (ps : List Octets) : rootFromPeaks H ps = Cll.rootFromPeaks H ps := by
  unfold rootFromPeaks Cll.rootFromPeaks
  rcases ps.reverse with _ | ⟨right, hashes⟩
  · rfl
  · dsimp only
    rw [bagLoop_eq]

theorem foldlM_climb_eq {steps : List Cll.PathStep} (hpos : ∀ step ∈ steps, step.parentPos < 2 ^ 50)
    (siblings : List Octets) (acc : Octets) :
    ((steps.map stepOf).zip siblings).foldlM (climb H) acc =
      (steps.zip siblings).foldlM (Cll.climb H) acc := by
  induction steps generalizing siblings acc with
  | nil => rfl
  | cons step steps ih =>
      rcases siblings with _ | ⟨x, siblings⟩
      · rfl
      · have hp := hpos step List.mem_cons_self
        have hclimb : climb H acc (stepOf step, x) = Cll.climb H acc (step, x) := by
          unfold climb Cll.climb stepOf
          dsimp only
          rw [interiorHash_eq hp, interiorHash_eq hp]
        rw [List.map_cons, List.zip_cons_cons, List.zip_cons_cons, List.foldlM_cons, List.foldlM_cons,
          hclimb]
        exact bind_congr fun acc' => ih (fun s hs => hpos s (List.mem_cons_of_mem _ hs)) siblings acc'

end ScittCose.MmrJs
