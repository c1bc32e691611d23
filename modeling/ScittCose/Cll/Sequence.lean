import ScittCose.Cll.Position
import ScittCose.Lib.MmrSequence

/-!
# The position math and the range as it grows (`scitt_cose/cll.py`)

The four loops of the position math compute places in a sequence that none of them builds: the nodes of a
range in the order they are appended, `Mmr.grown`.
-/

namespace ScittCose.Cll

open Mmr

/-- The steps from a node of a range up to a node above it, each to the parent of the node it starts from. A
parent of height `h` has its left child at `parent - 2 ^ h` and its right child at `parent - 1`. -/
inductive Climbs (nodes : List Node) : ℕ → List PathStep → ℕ → Prop
  | done (p : ℕ) : Climbs nodes p [] p
  | fromLeft {t sibling parent h top : ℕ} {steps : List PathStep}
      (hparent : nodes[parent]? = some ⟨h, some (t, sibling)⟩) (hleft : t + 2 ^ h = parent)
      (hright : sibling + 1 = parent) (hrest : Climbs nodes parent steps top) :
      Climbs nodes t (⟨sibling, false, parent⟩ :: steps) top
  | fromRight {t sibling parent h top : ℕ} {steps : List PathStep}
      (hparent : nodes[parent]? = some ⟨h, some (sibling, t)⟩) (hleft : sibling + 2 ^ h = parent)
      (hright : t + 1 = parent) (hrest : Climbs nodes parent steps top) :
      Climbs nodes t (⟨sibling, true, parent⟩ :: steps) top

theorem Climbs.append {nodes : List Node} {t mid top : ℕ} {steps rest : List PathStep}
    (hc : Climbs nodes t steps mid) (hrest : Climbs nodes mid rest top) :
    Climbs nodes t (steps ++ rest) top := by
  induction hc with
  | done p => exact hrest
  | fromLeft hparent hleft hright _ ih => exact .fromLeft hparent hleft hright (ih hrest)
  | fromRight hparent hleft hright _ ih => exact .fromRight hparent hleft hright (ih hrest)

/-- The path located below a root climbs to the root. -/
theorem climbs_locatePath {f H S h s : ℕ} (hb : Below H S h s) (hS : 2 ^ H ∣ S) (hle : S + 2 ^ H ≤ f) :
    Climbs (grown f).nodes (pos h s) (locatePath (pos H S) H (pos h s)) (pos H S) := by
  induction hb with
  | root H S =>
      rw [locatePath_self]
      exact .done _
  | @left H S h s hb ih =>
      have hpow : 2 ^ (H + 1) = 2 * 2 ^ H := pow_succ' 2 H
      have hnode := getElem?_nodes hS hle
      rw [locatePath_left hb hS]
      apply (ih (dvd_left hS) (by omega)).append
      exact .fromLeft hnode (pos_left H S).symm (pos_right hS).symm (.done _)
  | @right H S h s hb ih =>
      have hpow : 2 ^ (H + 1) = 2 * 2 ^ H := pow_succ' 2 H
      have hnode := getElem?_nodes hS hle
      rw [locatePath_right hb hS]
      apply (ih (dvd_right hS) (by omega)).append
      exact .fromRight hnode (pos_left H S).symm (pos_right hS).symm (.done _)

/-- The tops of a range are the roots of its trees. -/
theorem exists_of_mem_mountainTops {f : ℕ} {top : ℕ × ℕ} (htop : top ∈ (grown f).mountainTops) :
    ∃ h s, top = (h, pos h s) ∧ (h, s) ∈ mountains f ∧ 2 ^ h ∣ s ∧ s + 2 ^ h ≤ f := by
  rw [mountainTops_grown] at htop
  obtain ⟨⟨h, s⟩, hp, rfl⟩ := List.mem_map.mp htop
  obtain ⟨hs, hle, -⟩ := mem_mountains hp
  exact ⟨h, s, rfl, hp, dvd_left hs, hle⟩

theorem peaks_grown {f : ℕ} (hmax : (nodeCount f : ℤ) < maxMmrSize) :
    peaks (nodeCount f) = some ((grown f).mountainTops.map Prod.snd) := by
  rw [peaks_nodeCount hmax, mountainTops_grown, List.map_map]
  rfl

theorem heightAt_of_getElem? {f p : ℕ} {node : Node} (hp : (grown f).nodes[p]? = some node) :
    heightAt p = node.height := by
  obtain ⟨h, s, hs, -, rfl, rfl⟩ := getElem?_nodes_iff.mp hp
  rw [heightAt_pos hs, height_nodeAt]

theorem leafIndexToPos_natCast {i : ℕ} (hi : nodeCount i < 2 ^ 50) : leafIndexToPos i = some (pos 0 i) := by
  unfold leafIndexToPos maxMmrSize
  rw [if_neg (by omega), Int.toNat_natCast, if_neg (by omega), pos_zero]

theorem climbs_of_under {f t : ℕ} {top : ℕ × ℕ} (htop : top ∈ (grown f).mountainTops)
    (hu : (grown f).Under top.2 t) :
    Climbs (grown f).nodes t (locatePath top.2 (heightAt top.2) t) top.2 := by
  obtain ⟨H, S, rfl, -, hS, hle⟩ := exists_of_mem_mountainTops htop
  obtain ⟨h, s, hb, rfl⟩ := hu.exists_below rfl hS hle
  rw [heightAt_pos hS]
  exact climbs_locatePath hb hS hle

/-- The position math is that of the range as it grows. Sizes: `peaks` accepts the node counts, and its
positions are the tops from left to right. Heights: `height_at` is the height of the node appended there.
Leaves: `leaf_index_to_pos` is where the leaf that `i` leaves precede lies. Paths: `_locate_path` climbs from a
node below a top up to that top. -/
theorem position_math_of_grown :
    (∀ size : ℕ, size < 2 ^ 50 →
      ((peaks size).isSome ↔ ∃ f, size = nodeCount f) ∧
      ∀ f, size = nodeCount f →
        leafCount size = some f ∧ (∀ g, size = nodeCount g → g = f) ∧
        (grown f).nodes.length = size ∧
        peaks size = some ((grown f).mountainTops.map Prod.snd) ∧
        (∀ top ∈ (grown f).mountainTops, (grown f).nodes[top.2]?.map Node.height = some top.1) ∧
        (grown f).mountainTops.Pairwise fun top next => next.1 < top.1) ∧
    (∀ p, p < (grown (p + 1)).nodes.length ∧
      ∀ f node, (grown f).nodes[p]? = some node → heightAt p = node.height) ∧
    (∀ i : ℕ, nodeCount i < 2 ^ 50 → ∃ p, leafIndexToPos i = some p ∧ ∀ f, i < f →
      (grown f).nodes[p]?.map Node.height = some 0 ∧ countLeaves ((grown f).nodes.take p) = i) ∧
    ∀ f, ∀ top ∈ (grown f).mountainTops, ∀ t, (grown f).Under top.2 t →
      Climbs (grown f).nodes t (locatePath top.2 (heightAt top.2) t) top.2 := by
  refine ⟨fun size hsize => ⟨?_, ?_⟩, fun p => ⟨lt_length_nodes p, ?_⟩, fun i hi => ?_, ?_⟩
  · rw [Option.isSome_iff_exists]
    constructor
    · rintro ⟨pks, hpks⟩
      obtain ⟨f, hf, -⟩ := peaks_eq_some_iff.mp hpks
      exact ⟨f, by exact_mod_cast hf⟩
    · rintro ⟨f, rfl⟩
      exact ⟨_, peaks_nodeCount (by unfold maxMmrSize; exact_mod_cast hsize)⟩
  · rintro f rfl
    have hmax : (nodeCount f : ℤ) < maxMmrSize := by
      unfold maxMmrSize
      exact_mod_cast hsize
    refine ⟨leafCount_eq_some_iff.mpr ⟨rfl, hmax⟩, fun g hg => (nodeCount_strictMono.injective hg).symm,
      length_nodes f, peaks_grown hmax, fun top htop => ?_, pairwise_mountainTops f⟩
    obtain ⟨h, s, rfl, -, hs, hle⟩ := exists_of_mem_mountainTops htop
    rw [getElem?_nodes hs hle, Option.map_some, height_nodeAt]
  · exact fun f node hp => heightAt_of_getElem? hp
  · refine ⟨pos 0 i, leafIndexToPos_natCast hi, fun f hf => ⟨?_, countLeaves_take hf.le⟩⟩
    rw [getElem?_nodes (one_dvd i) hf]
    rfl
  · exact fun f top htop t hu => climbs_of_under htop hu

/-- The path of the third leaf of four, at position 3 under the top at 6. -/
example : locatePath 6 (heightAt 6) 3 = [⟨4, false, 5⟩, ⟨2, true, 6⟩] := by decide

end ScittCose.Cll
