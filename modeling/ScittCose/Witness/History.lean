import ScittCose.Cll.Parity
import ScittCose.Witness.Evidence

/-!
# Checkpoints of one log, as the browser verifies them

A signed checkpoint carries a proof that it extends the one before it. So a row of checkpoints, each of which
names the one before it, are those of growing prefixes of the log of the last (`records_of_history`), and an
earlier checkpoint that is witnessed in part is one of a prefix, with as many records as the page says
(`records_of_part`). As everywhere, this is up to a collision among the inputs that were hashed.
-/

namespace ScittCose.Witness

open Cll Mmr
open Pages (strOf intOf)

/-- The checkpoint of the first `f` records of a log. -/
def CheckpointOf (H : Hash) (L : List Digest) (f : ℕ) (cp : VerifiedCheckpoint) : Prop :=
  f ≤ L.length ∧ cp.size = nodeCount f ∧
    ∃ root, MmrJs.hexToBytes cp.root = some root ∧ mmrRoot H (L.take f) = some root

/-- A row of verified checkpoints, each of which names the size and the root of the one before it. -/
structure History (P : Page) (k : ℕ) (c : ℕ → VerifiedCheckpoint) : Prop where
  verified : ∀ i ≤ k, ∃ cose, verifyCheckpoint P cose = .ok (c i)
  named : ∀ i < k, (c (i + 1)).prevSize = (c i).size ∧ (c (i + 1)).prevRoot = (c i).root

/-- A proof for each step that the verifier of the log accepts. -/
def StepsAccepted (H : Hash) (k : ℕ) (c : ℕ → VerifiedCheckpoint) (proof : ℕ → ConsistencyProof) : Prop :=
  ∀ i < k, MmrJs.verifyConsistency H (c i).root (c i).size (c (i + 1)).root (c (i + 1)).size (proof i) = true

/-- What the proofs of the steps hash. -/
def historyInputs (H : Hash) (k : ℕ) (c : ℕ → VerifiedCheckpoint) (proof : ℕ → ConsistencyProof) : List Octets :=
  (List.range k).flatMap fun i => verifyConsistencyInputs H (c i).size (c (i + 1)).size (proof i)

variable {P : Page} {H : Hash} {L : List Digest}

/-! ## One step -/

/-- A root in hexadecimal is that of a prefix, whose bagging was hashed. -/
def OfLogHex (H : Hash) (inputs : List Octets) (L : List Digest) (cp : VerifiedCheckpoint) (f : ℕ) : Prop :=
  ∃ root, MmrJs.hexToBytes cp.root = some root ∧ OfLog H inputs L cp.size root f

/-- What the browser accepts the library accepts, for the same roots. -/
theorem library_of_verifyConsistency {rootAHex rootBHex : String} {sizeA sizeB : ℤ} {proof : ConsistencyProof}
    (h : MmrJs.verifyConsistency H rootAHex sizeA rootBHex sizeB proof = true) :
    ∃ rootA rootB, MmrJs.hexToBytes rootAHex = some rootA ∧ MmrJs.hexToBytes rootBHex = some rootB ∧
      verifyConsistency H rootA sizeA rootB sizeB proof = true := by
  have hbody : ∃ b, MmrJs.consistencyBody H rootAHex sizeA rootBHex sizeB proof = some b := by
    unfold MmrJs.verifyConsistency at h
    cases hbody : MmrJs.consistencyBody H rootAHex sizeA rootBHex sizeB proof with
    | none => rw [hbody] at h; cases h
    | some b => exact ⟨b, rfl⟩
  obtain ⟨b, hbody⟩ := hbody
  obtain ⟨rootA, hA, hbody⟩ := Option.bind_eq_some_iff.mp hbody
  obtain ⟨rootB, hB, -⟩ := Option.bind_eq_some_iff.mp hbody
  refine ⟨rootA, rootB, hA, hB, ?_⟩
  exact (verifyConsistencyBy_iff MmrJs.length_of_libraryDigest).mpr ((MmrJs.verifyConsistency_iff hA hB).mp h).2

/-- What a checkpoint of the log is shown to extend is one of the log, of fewer records. -/
theorem ofLogHex_earlier {inputs : List Octets} (hno : ¬ H.Collision inputs) (hlog : mmrInputs H L ⊆ inputs)
    {earlier cp : VerifiedCheckpoint} {proof : ConsistencyProof}
    (hrun : verifyConsistencyInputs H earlier.size cp.size proof ⊆ inputs) {g : ℕ}
    (hcp : OfLogHex H inputs L cp g) (hsize : earlier.size < cp.size)
    (h : MmrJs.verifyConsistency H earlier.root earlier.size cp.root cp.size proof = true) :
    ∃ f, f < g ∧ OfLogHex H inputs L earlier f ∧ (nodeCount f : ℤ) < maxMmrSize := by
  obtain ⟨rootA, rootB, hA, hB, h⟩ := library_of_verifyConsistency h
  obtain ⟨root, hroot, hof⟩ := hcp
  obtain rfl : rootB = root := Option.some.inj (hB.symm.trans hroot)
  obtain ⟨f, hf, hmax⟩ := ofLog_of_verifyConsistency hno hlog hrun hof h
  refine ⟨f, ?_, ⟨rootA, hA, hf⟩, hmax⟩
  -- the sizes are the node counts of the prefixes
  rw [hf.2.1, hof.2.1] at hsize
  exact nodeCount_strictMono.lt_iff_lt.mp (by exact_mod_cast hsize)

theorem checkpointOf_of_ofLogHex {inputs : List Octets} {cp : VerifiedCheckpoint} {f : ℕ}
    (h : OfLogHex H inputs L cp f) (hmax : (nodeCount f : ℤ) < maxMmrSize) : CheckpointOf H L f cp := by
  obtain ⟨root, hroot, hf, hsize, rfl, -⟩ := h
  refine ⟨hf, hsize, _, hroot, mmrRoot_eq ?_⟩
  rw [List.length_take, Nat.min_eq_left hf]
  unfold maxMmrSize at hmax
  omega

/-- The checkpoint of the whole log, whose nodes are among the inputs. -/
theorem ofLogHex_last {inputs : List Octets} (hlog : mmrInputs H L ⊆ inputs) {cp : VerifiedCheckpoint}
    (h : CheckpointOf H L L.length cp) : OfLogHex H inputs L cp L.length := by
  obtain ⟨-, hsize, root, hroot, hmmr⟩ := h
  rw [List.take_length] at hmmr
  refine ⟨root, hroot, le_rfl, hsize, ?_, ?_⟩
  · rw [List.take_length]
    exact bagged_of_mmrRoot hmmr
  · rw [List.take_length]
    exact fun x hx => hlog (List.mem_append_right _ hx)

/-! ## A row of checkpoints -/

/-- A verified checkpoint that names another as the one before it carries a proof between the two. -/
theorem exists_proof_of_named {cose : Octets} {earlier cp : VerifiedCheckpoint} (hcp : verifyCheckpoint P cose = .ok cp)
    (hpos : 0 < earlier.size) (hsize : cp.prevSize = earlier.size) (hroot : cp.prevRoot = earlier.root) :
    earlier.size < cp.size ∧
      ∃ proof, MmrJs.verifyConsistency P.hash earlier.root earlier.size cp.root cp.size proof = true := by
  have hsigned := signed_of_verifyCheckpoint hcp
  rw [← hsize, ← hroot]
  refine ⟨hsigned.prevSize_lt, ?_⟩
  rcases hsigned.extends_previous with ⟨hzero, -⟩ | ⟨-, hproof⟩
  · omega
  · exact hproof

theorem History.exists_proof {k : ℕ} {c : ℕ → VerifiedCheckpoint} (h : History P k c) {i : ℕ} (hi : i < k) :
    (c i).size < (c (i + 1)).size ∧ ∃ proof,
      MmrJs.verifyConsistency P.hash (c i).root (c i).size (c (i + 1)).root (c (i + 1)).size proof = true := by
  obtain ⟨cose, hcose⟩ := h.verified i hi.le
  obtain ⟨cose', hcose'⟩ := h.verified (i + 1) hi
  obtain ⟨hsize, hroot⟩ := h.named i hi
  have hsigned := signed_of_verifyCheckpoint hcose
  have hpos : 0 < (c i).size := lt_of_le_of_lt hsigned.prevSize_nonneg hsigned.prevSize_lt
  exact exists_proof_of_named hcose' hpos hsize hroot

/-- Going back from the last checkpoint, each is one of the log. -/
theorem ofLogHex_of_steps {k : ℕ} {c : ℕ → VerifiedCheckpoint} {proof : ℕ → ConsistencyProof}
    (hno : ¬ H.Collision (historyInputs H k c proof ++ mmrInputs H L)) (haccepted : StepsAccepted H k c proof)
    (hgrows : ∀ i < k, (c i).size < (c (i + 1)).size) (hlast : CheckpointOf H L L.length (c k)) {j : ℕ} (hj : j ≤ k) :
    ∃ f, OfLogHex H (historyInputs H k c proof ++ mmrInputs H L) L (c (k - j)) f ∧ CheckpointOf H L f (c (k - j)) := by
  induction j with
  | zero => exact ⟨L.length, ofLogHex_last (List.subset_append_right _ _) hlast, hlast⟩
  | succ j ih =>
      obtain ⟨g, hg, -⟩ := ih (by omega)
      obtain ⟨i, hi⟩ : ∃ i, k - j = i + 1 := ⟨k - j - 1, by omega⟩
      obtain rfl : k - (j + 1) = i := by omega
      rw [hi] at hg
      have hi' : k - (j + 1) < k := by omega
      have hrun : verifyConsistencyInputs H (c (k - (j + 1))).size (c (k - (j + 1) + 1)).size
          (proof (k - (j + 1))) ⊆ historyInputs H k c proof ++ mmrInputs H L := by
        intro x hx
        apply List.mem_append_left
        exact List.mem_flatMap.mpr ⟨_, List.mem_range.mpr hi', hx⟩
      obtain ⟨f, -, hf, hmax⟩ := ofLogHex_earlier hno (List.subset_append_right _ _) hrun hg (hgrows _ hi')
        (haccepted _ hi')
      exact ⟨f, hf, checkpointOf_of_ofLogHex hf hmax⟩

/-- Checkpoints that the browser verifies one after the other are those of longer and longer prefixes of the log
of the last, or the proofs they carry exhibit a collision. -/
theorem records_of_history {k : ℕ} {c : ℕ → VerifiedCheckpoint} (h : History P k c)
    (hlast : CheckpointOf P.hash L L.length (c k)) :
    ∃ proof, StepsAccepted P.hash k c proof ∧
      ((∃ f : ℕ → ℕ, (∀ i ≤ k, CheckpointOf P.hash L (f i) (c i)) ∧ ∀ i < k, f i < f (i + 1)) ∨
        P.hash.Collision (historyInputs P.hash k c proof ++ mmrInputs P.hash L)) := by
  have hproof : ∀ i, ∃ proof, i < k →
      MmrJs.verifyConsistency P.hash (c i).root (c i).size (c (i + 1)).root (c (i + 1)).size proof = true := by
    intro i
    by_cases hi : i < k
    · obtain ⟨-, proof, hproof⟩ := h.exists_proof hi
      exact ⟨proof, fun _ => hproof⟩
    · exact ⟨⟨1, "consistency", 0, 0, [], [], []⟩, fun hlt => absurd hlt hi⟩
  obtain ⟨proof, haccepted⟩ := Classical.axiom_of_choice hproof
  refine ⟨proof, haccepted, ?_⟩
  by_cases hno : P.hash.Collision (historyInputs P.hash k c proof ++ mmrInputs P.hash L)
  · exact .inr hno
  have hall : ∀ i, ∃ f, i ≤ k → CheckpointOf P.hash L f (c i) := by
    intro i
    by_cases hi : i ≤ k
    · obtain ⟨f, -, hf⟩ := ofLogHex_of_steps hno haccepted (fun i hi => (h.exists_proof hi).1) hlast
        (Nat.sub_le k i)
      rw [Nat.sub_sub_self hi] at hf
      exact ⟨f, fun _ => hf⟩
    · exact ⟨0, fun hle => absurd hle hi⟩
  obtain ⟨f, hf⟩ := Classical.axiom_of_choice hall
  refine .inl ⟨f, hf, fun i hi => ?_⟩
  -- a larger size is one of more records
  have hlt := (h.exists_proof hi).1
  rw [(hf i hi.le).2.1, (hf (i + 1) hi).2.1] at hlt
  exact nodeCount_strictMono.lt_iff_lt.mp (by exact_mod_cast hlt)

/-! ## A part of a log -/

/-- The leaves the browser counts are the records of the checkpoint. -/
theorem leafCountFromSize_of_checkpointOf {cp : VerifiedCheckpoint} {f : ℕ} (h : CheckpointOf H L f cp) {count : ℤ}
    (hcount : MmrJs.leafCountFromSize cp.size = some count) : count = f := by
  rw [MmrJs.leafCountFromSize_eq] at hcount
  obtain ⟨n, hn, rfl⟩ := Option.map_eq_some_iff.mp hcount
  obtain ⟨hsize, -⟩ := leafCount_eq_some_iff.mp hn
  rw [h.2.1] at hsize
  have hcast : nodeCount f = nodeCount n := by exact_mod_cast hsize
  rw [nodeCount_strictMono.injective hcast]

/-- Evidence for a part of a log: the checkpoint that was witnessed is one of a prefix, signed by the key of the
bundle's checkpoint, and the steps are the records of the prefix and of the log, or there is a collision. -/
theorem records_of_part {bundle : Json.Tree} {list : Option (List Json.Tree)} {out : Evidence}
    (h : checkWitnessEvidence P bundle list = some out) (hrung : out.rung = some .witnessedInPart) :
    ∃ text cose cp earlierCose earlier proof, statedCose bundle = some text ∧ b64Decode text true = some cose ∧
      verifyCheckpoint P cose = .ok cp ∧ verifyCheckpoint P earlierCose = .ok earlier ∧ earlier.kid = cp.kid ∧
      MmrJs.verifyConsistency P.hash earlier.root earlier.size cp.root cp.size proof = true ∧
      ∀ L, CheckpointOf P.hash L L.length cp →
        (∃ f, f < L.length ∧ CheckpointOf P.hash L f earlier ∧ out.steps = some ((f : ℤ), (L.length : ℤ))) ∨
          P.hash.Collision (verifyConsistencyInputs P.hash earlier.size cp.size proof ++ mmrInputs P.hash L) := by
  obtain ⟨text, cose, cp, rows, htext, hcose, hcp, -, hwitnessed⟩ := witnessed_of_checkWitnessEvidence h hrung
  cases hwitnessed with
  | @part chain earlier cadence entries stepsWitnessed steps hchain hearlier hreceipts hleaves hall hsteps =>
      obtain ⟨earlierCose, hleaf, -⟩ := hchain.leaf
      obtain ⟨proof, hproof⟩ := hearlier.consistent
      refine ⟨text, cose, cp, earlierCose, earlier, proof, htext, hcose, hcp, hleaf.verified, hearlier.kid_eq, hproof,
        fun L hlast => or_iff_not_imp_right.mpr fun hno => ?_⟩
      obtain ⟨f, hf, hof, hmax⟩ := ofLogHex_earlier hno (List.subset_append_right _ _)
        (List.subset_append_left _ _) (ofLogHex_last (List.subset_append_right _ _) hlast) hearlier.size_lt hproof
      have hcheckpoint := checkpointOf_of_ofLogHex hof hmax
      rw [leafCountFromSize_of_checkpointOf hcheckpoint hleaves, leafCountFromSize_of_checkpointOf hlast hall] at hsteps
      exact ⟨f, hf, hcheckpoint, hsteps⟩

/-! ## A bundle with evidence for a part -/

/-- The key of the two logs of the sample. -/
def partKey : Octets := Octets.ofNat 32 0xea4a6c63e29c520abef5507b132ec5f9954776aebebe7b92421eea691446d22c

/-- The key of its witness. -/
def partWitnessKey : Octets :=
  Octets.ofNat 32 0xfd1724385aa0c75b64fb78cd602fa1d991fdebf76b13c58ed702eac835e9f618

/-- The signatures of the sample, by their keys and the hashes of what they sign. -/
def partSignatures : List (Octets × Octets × Octets) :=
  [(partKey, Octets.ofNat 32 0x6c705006d4e37df0539898bbb94b29e4c2b121b924f8f9e1e47c7966dbab3893,
    Octets.ofNat 64
      0xf130e386d88f65eda42cd69de5767eb9d575fd33cbd7c3400f08dc0e94b2e6f023052eab74bc62efb42faa2d099060f2e35a57cfb5ffed6186adefcf23110704),
   (partKey, Octets.ofNat 32 0xc496e58296db66de6e215f3c58344aa585d1c28aae0d58772996ee12e366cd71,
    Octets.ofNat 64
      0x185332aeab9ce4b846d0591e1877bb5ef2e64a2d5a3db8a8c107c13149dc024f1639d1b8d6760bb7d6322140469f9be2a27f8ff556ea076b2439c5f0e6b33000),
   (partKey, Octets.ofNat 32 0xf9165bb7114c10e541343b3caab721c0ffb31888d34489c06faabfd3fbef9ade,
    Octets.ofNat 64
      0x6caf0afcc777e4ce85f961d22fa54eb204ddf280e04fe648c2f9d9e8327d8e03aa5f399146966bfe37ad71b9dea7a8ebdf0e46e8b7a894aeb4fdd179be43db0e),
   (partWitnessKey, Octets.ofNat 32 0x2faecbd74911f96e62ce3a258e752ddd376780df0a4d0dfd9e07826b5009bd0a,
    Octets.ofNat 64
      0x69ea7f124310a3d5b2bdf05574a1cedbbaa44cd6ee78995aa3ed1f512d31fca4ad5477323f7b4955ce66a693e6804e964d80bf975756030a8c35794329d39303)]

/-- SHA-256, reference CBOR, and the keys and signatures of the sample. -/
def partPage : Page :=
  { samplePage with
    ed25519Verify := fun key32 m signature => partSignatures.contains (key32, Hash.sha256.digest m, signature) }

/-- The checkpoint of the first record of a log. -/
def earlierCose : Octets := [
  0xd2, 0x84, 0x58, 0x56, 0xa4, 0x01, 0x27, 0x03, 0x78, 0x1f, 0x61, 0x70, 0x70, 0x6c, 0x69, 0x63, 0x61,
  0x74, 0x69, 0x6f, 0x6e, 0x2f, 0x63, 0x6c, 0x6c, 0x2d, 0x63, 0x68, 0x65, 0x63, 0x6b, 0x70, 0x6f, 0x69,
  0x6e, 0x74, 0x2b, 0x63, 0x62, 0x6f, 0x72, 0x04, 0x58, 0x20, 0xea, 0x4a, 0x6c, 0x63, 0xe2, 0x9c, 0x52,
  0x0a, 0xbe, 0xf5, 0x50, 0x7b, 0x13, 0x2e, 0xc5, 0xf9, 0x95, 0x47, 0x76, 0xae, 0xbe, 0xbe, 0x7b, 0x92,
  0x42, 0x1e, 0xea, 0x69, 0x14, 0x46, 0xd2, 0x2c, 0x0f, 0xa2, 0x01, 0x63, 0x6c, 0x6f, 0x67, 0x02, 0x65,
  0x6c, 0x6f, 0x67, 0x23, 0x31, 0xa0, 0x58, 0x8a, 0xa6, 0x64, 0x6b, 0x69, 0x6e, 0x64, 0x6e, 0x63, 0x6c,
  0x6c, 0x2d, 0x63, 0x68, 0x65, 0x63, 0x6b, 0x70, 0x6f, 0x69, 0x6e, 0x74, 0x68, 0x6c, 0x6f, 0x67, 0x5f,
  0x73, 0x69, 0x7a, 0x65, 0x01, 0x69, 0x69, 0x73, 0x73, 0x75, 0x65, 0x64, 0x5f, 0x61, 0x74, 0x74, 0x32,
  0x30, 0x32, 0x36, 0x2d, 0x30, 0x31, 0x2d, 0x30, 0x31, 0x54, 0x30, 0x30, 0x3a, 0x30, 0x30, 0x3a, 0x30,
  0x30, 0x5a, 0x69, 0x70, 0x72, 0x65, 0x76, 0x5f, 0x73, 0x69, 0x7a, 0x65, 0x00, 0x6a, 0x63, 0x6f, 0x6d,
  0x6d, 0x69, 0x74, 0x6d, 0x65, 0x6e, 0x74, 0x58, 0x23, 0x81, 0x58, 0x20, 0xdc, 0xff, 0xe7, 0x86, 0xde,
  0xd1, 0x6d, 0x28, 0x3c, 0x66, 0x38, 0x46, 0xad, 0x0c, 0x4f, 0xf2, 0x65, 0x58, 0xfc, 0xcd, 0xe3, 0x6c,
  0xa9, 0xd3, 0x0b, 0x2e, 0xa1, 0x9e, 0xad, 0xe9, 0xfc, 0x0e, 0x6f, 0x70, 0x72, 0x65, 0x76, 0x5f, 0x63,
  0x6f, 0x6d, 0x6d, 0x69, 0x74, 0x6d, 0x65, 0x6e, 0x74, 0x40, 0x58, 0x40, 0xf1, 0x30, 0xe3, 0x86, 0xd8,
  0x8f, 0x65, 0xed, 0xa4, 0x2c, 0xd6, 0x9d, 0xe5, 0x76, 0x7e, 0xb9, 0xd5, 0x75, 0xfd, 0x33, 0xcb, 0xd7,
  0xc3, 0x40, 0x0f, 0x08, 0xdc, 0x0e, 0x94, 0xb2, 0xe6, 0xf0, 0x23, 0x05, 0x2e, 0xab, 0x74, 0xbc, 0x62,
  0xef, 0xb4, 0x2f, 0xaa, 0x2d, 0x09, 0x90, 0x60, 0xf2, 0xe3, 0x5a, 0x57, 0xcf, 0xb5, 0xff, 0xed, 0x61,
  0x86, 0xad, 0xef, 0xcf, 0x23, 0x11, 0x07, 0x04]

/-- The checkpoint of its two records. -/
def partCose : Octets := [
  0xd2, 0x84, 0x58, 0x56, 0xa4, 0x01, 0x27, 0x03, 0x78, 0x1f, 0x61, 0x70, 0x70, 0x6c, 0x69, 0x63, 0x61,
  0x74, 0x69, 0x6f, 0x6e, 0x2f, 0x63, 0x6c, 0x6c, 0x2d, 0x63, 0x68, 0x65, 0x63, 0x6b, 0x70, 0x6f, 0x69,
  0x6e, 0x74, 0x2b, 0x63, 0x62, 0x6f, 0x72, 0x04, 0x58, 0x20, 0xea, 0x4a, 0x6c, 0x63, 0xe2, 0x9c, 0x52,
  0x0a, 0xbe, 0xf5, 0x50, 0x7b, 0x13, 0x2e, 0xc5, 0xf9, 0x95, 0x47, 0x76, 0xae, 0xbe, 0xbe, 0x7b, 0x92,
  0x42, 0x1e, 0xea, 0x69, 0x14, 0x46, 0xd2, 0x2c, 0x0f, 0xa2, 0x01, 0x63, 0x6c, 0x6f, 0x67, 0x02, 0x65,
  0x6c, 0x6f, 0x67, 0x23, 0x33, 0xa0, 0x59, 0x01, 0x57, 0xa7, 0x64, 0x6b, 0x69, 0x6e, 0x64, 0x6e, 0x63,
  0x6c, 0x6c, 0x2d, 0x63, 0x68, 0x65, 0x63, 0x6b, 0x70, 0x6f, 0x69, 0x6e, 0x74, 0x68, 0x6c, 0x6f, 0x67,
  0x5f, 0x73, 0x69, 0x7a, 0x65, 0x03, 0x69, 0x69, 0x73, 0x73, 0x75, 0x65, 0x64, 0x5f, 0x61, 0x74, 0x74,
  0x32, 0x30, 0x32, 0x36, 0x2d, 0x30, 0x31, 0x2d, 0x30, 0x31, 0x54, 0x30, 0x30, 0x3a, 0x30, 0x30, 0x3a,
  0x30, 0x30, 0x5a, 0x69, 0x70, 0x72, 0x65, 0x76, 0x5f, 0x73, 0x69, 0x7a, 0x65, 0x01, 0x6a, 0x63, 0x6f,
  0x6d, 0x6d, 0x69, 0x74, 0x6d, 0x65, 0x6e, 0x74, 0x58, 0x23, 0x81, 0x58, 0x20, 0x51, 0x07, 0x04, 0xc5,
  0xa7, 0x33, 0x6a, 0x37, 0x96, 0xcf, 0x4e, 0x41, 0x8f, 0x3b, 0xac, 0x90, 0x04, 0xac, 0x6a, 0x7f, 0xa7,
  0x35, 0xc3, 0xa9, 0x52, 0xab, 0x62, 0x64, 0x35, 0xe3, 0x2b, 0x1b, 0x6f, 0x70, 0x72, 0x65, 0x76, 0x5f,
  0x63, 0x6f, 0x6d, 0x6d, 0x69, 0x74, 0x6d, 0x65, 0x6e, 0x74, 0x58, 0x23, 0x81, 0x58, 0x20, 0xdc, 0xff,
  0xe7, 0x86, 0xde, 0xd1, 0x6d, 0x28, 0x3c, 0x66, 0x38, 0x46, 0xad, 0x0c, 0x4f, 0xf2, 0x65, 0x58, 0xfc,
  0xcd, 0xe3, 0x6c, 0xa9, 0xd3, 0x0b, 0x2e, 0xa1, 0x9e, 0xad, 0xe9, 0xfc, 0x0e, 0x71, 0x63, 0x6f, 0x6e,
  0x73, 0x69, 0x73, 0x74, 0x65, 0x6e, 0x63, 0x79, 0x5f, 0x70, 0x72, 0x6f, 0x6f, 0x66, 0xa5, 0x66, 0x73,
  0x69, 0x7a, 0x65, 0x5f, 0x61, 0x01, 0x66, 0x73, 0x69, 0x7a, 0x65, 0x5f, 0x62, 0x03, 0x67, 0x77, 0x69,
  0x74, 0x6e, 0x65, 0x73, 0x73, 0x81, 0x81, 0x58, 0x20, 0xcb, 0xa8, 0xc5, 0x96, 0x12, 0x0b, 0xdb, 0x69,
  0xde, 0xbb, 0xd9, 0x23, 0xd9, 0x2c, 0xba, 0x94, 0x8b, 0xde, 0x7c, 0x7d, 0x06, 0xa4, 0x65, 0xa1, 0xbb,
  0x7d, 0x98, 0xd3, 0x11, 0x60, 0x38, 0xfa, 0x69, 0x6e, 0x65, 0x77, 0x5f, 0x70, 0x65, 0x61, 0x6b, 0x73,
  0x81, 0x58, 0x20, 0x51, 0x07, 0x04, 0xc5, 0xa7, 0x33, 0x6a, 0x37, 0x96, 0xcf, 0x4e, 0x41, 0x8f, 0x3b,
  0xac, 0x90, 0x04, 0xac, 0x6a, 0x7f, 0xa7, 0x35, 0xc3, 0xa9, 0x52, 0xab, 0x62, 0x64, 0x35, 0xe3, 0x2b,
  0x1b, 0x69, 0x6f, 0x6c, 0x64, 0x5f, 0x70, 0x65, 0x61, 0x6b, 0x73, 0x81, 0x58, 0x20, 0xdc, 0xff, 0xe7,
  0x86, 0xde, 0xd1, 0x6d, 0x28, 0x3c, 0x66, 0x38, 0x46, 0xad, 0x0c, 0x4f, 0xf2, 0x65, 0x58, 0xfc, 0xcd,
  0xe3, 0x6c, 0xa9, 0xd3, 0x0b, 0x2e, 0xa1, 0x9e, 0xad, 0xe9, 0xfc, 0x0e, 0x58, 0x40, 0x18, 0x53, 0x32,
  0xae, 0xab, 0x9c, 0xe4, 0xb8, 0x46, 0xd0, 0x59, 0x1e, 0x18, 0x77, 0xbb, 0x5e, 0xf2, 0xe6, 0x4a, 0x2d,
  0x5a, 0x3d, 0xb8, 0xa8, 0xc1, 0x07, 0xc1, 0x31, 0x49, 0xdc, 0x02, 0x4f, 0x16, 0x39, 0xd1, 0xb8, 0xd6,
  0x76, 0x0b, 0xb7, 0xd6, 0x32, 0x21, 0x40, 0x46, 0x9f, 0x9b, 0xe2, 0xa2, 0x7f, 0x8f, 0xf5, 0x56, 0xea,
  0x07, 0x6b, 0x24, 0x39, 0xc5, 0xf0, 0xe6, 0xb3, 0x30, 0x00]

/-- The checkpoint of a cadence log, which has the first as a leaf of its entry. -/
def cadenceCose : Octets := [
  0xd2, 0x84, 0x58, 0x5e, 0xa4, 0x01, 0x27, 0x03, 0x78, 0x1f, 0x61, 0x70, 0x70, 0x6c, 0x69, 0x63, 0x61,
  0x74, 0x69, 0x6f, 0x6e, 0x2f, 0x63, 0x6c, 0x6c, 0x2d, 0x63, 0x68, 0x65, 0x63, 0x6b, 0x70, 0x6f, 0x69,
  0x6e, 0x74, 0x2b, 0x63, 0x62, 0x6f, 0x72, 0x04, 0x58, 0x20, 0xea, 0x4a, 0x6c, 0x63, 0xe2, 0x9c, 0x52,
  0x0a, 0xbe, 0xf5, 0x50, 0x7b, 0x13, 0x2e, 0xc5, 0xf9, 0x95, 0x47, 0x76, 0xae, 0xbe, 0xbe, 0x7b, 0x92,
  0x42, 0x1e, 0xea, 0x69, 0x14, 0x46, 0xd2, 0x2c, 0x0f, 0xa2, 0x01, 0x67, 0x63, 0x61, 0x64, 0x65, 0x6e,
  0x63, 0x65, 0x02, 0x69, 0x63, 0x61, 0x64, 0x65, 0x6e, 0x63, 0x65, 0x23, 0x31, 0xa0, 0x58, 0x8a, 0xa6,
  0x64, 0x6b, 0x69, 0x6e, 0x64, 0x6e, 0x63, 0x6c, 0x6c, 0x2d, 0x63, 0x68, 0x65, 0x63, 0x6b, 0x70, 0x6f,
  0x69, 0x6e, 0x74, 0x68, 0x6c, 0x6f, 0x67, 0x5f, 0x73, 0x69, 0x7a, 0x65, 0x01, 0x69, 0x69, 0x73, 0x73,
  0x75, 0x65, 0x64, 0x5f, 0x61, 0x74, 0x74, 0x32, 0x30, 0x32, 0x36, 0x2d, 0x30, 0x31, 0x2d, 0x30, 0x31,
  0x54, 0x30, 0x30, 0x3a, 0x30, 0x30, 0x3a, 0x30, 0x30, 0x5a, 0x69, 0x70, 0x72, 0x65, 0x76, 0x5f, 0x73,
  0x69, 0x7a, 0x65, 0x00, 0x6a, 0x63, 0x6f, 0x6d, 0x6d, 0x69, 0x74, 0x6d, 0x65, 0x6e, 0x74, 0x58, 0x23,
  0x81, 0x58, 0x20, 0x1c, 0xd7, 0x0f, 0xf4, 0x23, 0x2b, 0xc5, 0xe3, 0xe7, 0x71, 0x7e, 0xf3, 0xcc, 0x6a,
  0xcb, 0x49, 0xe9, 0x88, 0x71, 0x77, 0xc7, 0xd4, 0x79, 0xa3, 0x07, 0xba, 0x42, 0x52, 0x75, 0xbb, 0x2f,
  0xb0, 0x6f, 0x70, 0x72, 0x65, 0x76, 0x5f, 0x63, 0x6f, 0x6d, 0x6d, 0x69, 0x74, 0x6d, 0x65, 0x6e, 0x74,
  0x40, 0x58, 0x40, 0x6c, 0xaf, 0x0a, 0xfc, 0xc7, 0x77, 0xe4, 0xce, 0x85, 0xf9, 0x61, 0xd2, 0x2f, 0xa5,
  0x4e, 0xb2, 0x04, 0xdd, 0xf2, 0x80, 0xe0, 0x4f, 0xe6, 0x48, 0xc2, 0xf9, 0xd9, 0xe8, 0x32, 0x7d, 0x8e,
  0x03, 0xaa, 0x5f, 0x39, 0x91, 0x46, 0x96, 0x6b, 0xfe, 0x37, 0xad, 0x71, 0xb9, 0xde, 0xa7, 0xa8, 0xeb,
  0xdf, 0x0e, 0x46, 0xe8, 0xb7, 0xa8, 0x94, 0xae, 0xb4, 0xfd, 0xd1, 0x79, 0xbe, 0x43, 0xdb, 0x0e]

/-- What the first checkpoint says. -/
def earlierVerified : VerifiedCheckpoint where
  logId := "log"
  size := 1
  root := "dcffe786ded16d283c663846ad0c4ff26558fccde36ca9d30b2ea19eade9fc0e"
  prevSize := 0
  prevRoot := ""
  kid := "ea4a6c63e29c520abef5507b132ec5f9954776aebebe7b92421eea691446d22c"
  issuedAt := "2026-01-01T00:00:00Z"

/-- What the second says. -/
def partVerified : VerifiedCheckpoint where
  logId := "log"
  size := 3
  root := "510704c5a7336a3796cf4e418f3bac9004ac6a7fa735c3a952ab626435e32b1b"
  prevSize := 1
  prevRoot := "dcffe786ded16d283c663846ad0c4ff26558fccde36ca9d30b2ea19eade9fc0e"
  kid := "ea4a6c63e29c520abef5507b132ec5f9954776aebebe7b92421eea691446d22c"
  issuedAt := "2026-01-01T00:00:00Z"

/-- What the cadence checkpoint says. -/
def cadenceVerified : VerifiedCheckpoint where
  logId := "cadence"
  size := 1
  root := "1cd70ff4232bc5e3e7717ef3cc6acb49e9887177c7d479a307ba425275bb2fb0"
  prevSize := 0
  prevRoot := ""
  kid := "ea4a6c63e29c520abef5507b132ec5f9954776aebebe7b92421eea691446d22c"
  issuedAt := "2026-01-01T00:00:00Z"

/-- The root of the tree whose leaf is the first checkpoint. -/
def partNode : Octets := Octets.ofNat 32 0xcddece22fb33ed89b72a740678b2432b35bb52db61afb311968b2479131616f3

/-- The entry of the cadence checkpoint. -/
def partEntry : Octets := Octets.ofNat 32 0x3ba7c88913b86a2156bf9f43a062cf820f636c19fc40cc27ec429462e7cb2f62

/-- The receipt for it. -/
def partReceipt : Json.Tree := .obj [
  ("entry_hash", .str "3ba7c88913b86a2156bf9f43a062cf820f636c19fc40cc27ec429462e7cb2f62"),
  ("leaf_index", .int 0), ("receipt_b64", .str "0oRHogEnGQGLAaEZAYyhIIFEgwEAgPZYQGnqfxJDEKPVsr3wVXShztu6pEzW7niZWqPtH1EtMfykrVR3Mj97SVXOZqaT5oBOlk2Av5dXVgMKjDV5QynTkwM="),
  ("tree_size", .int 1), ("ts_url", .str "https://witness.example")]

/-- A list with the witness. -/
def partList : List Json.Tree := [.obj [("endpoint", .str "https://witness.example"),
  ("key_ids", .arr [.str "fd1724385aa0c75b64fb78cd602fa1d991fdebf76b13c58ed702eac835e9f618"]),
  ("name", .str "test witness")]]

/-- The proof that the second checkpoint extends the first. -/
def partConsistency : Json.Tree := .obj [("v", .int 1),
    ("kind", .str "consistency"), ("old_size", .int 1), ("new_size", .int 3),
    ("old_peaks", .arr [.str "dcffe786ded16d283c663846ad0c4ff26558fccde36ca9d30b2ea19eade9fc0e"]),
    ("witness", .arr [.arr [.str "cba8c596120bdb69debbd923d92cba948bde7c7d06a465a1bb7d98d3116038fa"]]),
    ("new_peaks", .arr [.str "510704c5a7336a3796cf4e418f3bac9004ac6a7fa735c3a952ab626435e32b1b"])]

/-- The proof of the entry of the cadence log. -/
def partInclusion : Json.Tree := .obj [("v", .int 1), ("kind", .str "inclusion"), ("size", .int 1), ("leaf_index", .int 0),
      ("witness", .arr []), ("peaks_left", .arr []), ("peaks_right", .arr [])]

/-- The chain, with the texts of its two checkpoints. -/
def partChain (earlier cadence : String) : Json.Tree := .obj [
  ("cadence", .obj [("checkpoint", .obj [("cose", .str cadence)]), ("log_id", .str "cadence"),
    ("entry_index", .int 0), ("inclusion_proof", partInclusion), ("witnesses", .arr [partReceipt])]),
  ("earlier", .obj [("checkpoint", .obj [("cose", .str earlier)]), ("consistency_proof", partConsistency)]),
  ("extent", .str "part"), ("index", .int 0), ("log_id", .str "log"),
  ("path", .arr (List.replicate 16 (.str
    "0000000000000000000000000000000000000000000000000000000000000000"))),
  ("salt", .str "salt"), ("size", .int 1), ("state", .str "witnessed")]

/-- The bundle, with the texts of the three checkpoints. -/
def partBundle (cose earlier cadence : String) : Json.Tree := .obj [("checkpoint", .obj [("cose", .str cose)]),
  ("extensions", .obj [("x-cadence-witness/v0", partChain earlier cadence)])]

set_option maxRecDepth 100000 in
/-- The runs over the three checkpoints. -/
theorem checkpointBodies_part :
    checkpointBody partPage earlierCose = some (.ok earlierVerified) ∧
      checkpointBody partPage partCose = some (.ok partVerified) ∧
      checkpointBody partPage cadenceCose = some (.ok cadenceVerified) ∧
      (MmrJs.hexToBytes partVerified.root).isSome = true ∧
      MmrJs.hexToBytes partVerified.root = mmrRoot partPage.hash (sampleLog.take sampleLog.length) := by
  decide +kernel

set_option maxRecDepth 100000 in
/-- The runs over the proofs between them and over the receipt. -/
theorem proofs_part :
    (cadenceRoot partPage (partChain "" "") earlierVerified earlierCose).run = some (.ok partNode) ∧
      (checkReceipt partPage partEntry (some partList) partReceipt).status = .pass ∧
      (chainConsistency partConsistency).any (MmrJs.verifyConsistency partPage.hash earlierVerified.root
        earlierVerified.size partVerified.root partVerified.size) = true ∧
      (chainInclusion partInclusion).any (MmrJs.verifyInclusion partPage.hash cadenceVerified.root
        cadenceVerified.size 0 (Octets.toHex partNode)) = true := by
  decide +kernel

theorem checkpointBody_earlier : checkpointBody partPage earlierCose = some (.ok earlierVerified) :=
  checkpointBodies_part.1

theorem checkpointBody_part : checkpointBody partPage partCose = some (.ok partVerified) :=
  checkpointBodies_part.2.1

theorem checkpointBody_cadence : checkpointBody partPage cadenceCose = some (.ok cadenceVerified) :=
  checkpointBodies_part.2.2.1

theorem checkReceipt_part : (checkReceipt partPage partEntry (some partList) partReceipt).status = .pass :=
  proofs_part.2.1

theorem cadenceRoot_partChain (P : Page) (earlier cadence : String) (cp : VerifiedCheckpoint) (cose : Octets) :
    cadenceRoot P (partChain earlier cadence) cp cose = cadenceRoot P (partChain "" "") cp cose := rfl

set_option maxRecDepth 100000 in
theorem checkpointEntryHash_part : checkpointEntryHash partPage.hash cadenceVerified = some partEntry := by
  rw [checkpointEntryHash_eq (by decide) (by decide) (by decide +kernel), entryText, Utf8.encode,
    String.toList_ofList]
  decide +kernel

/-- The chain is one of the earlier checkpoint, in the cadence log. -/
theorem readChain_part {earlier cadence : String} (hearlier : b64Decode earlier true = some earlierCose)
    (hcadence : b64Decode cadence true = some cadenceCose) :
    (readChain partPage (partChain earlier cadence) partVerified partCose).Gives
      (earlierVerified, cadenceVerified) := by
  have hproof : memberOrEmpty (memberOrEmpty (partChain earlier cadence) "earlier") "consistency_proof" =
      partConsistency := rfl
  have hproof' : memberOrEmpty (memberOrEmpty (partChain earlier cadence) "cadence") "inclusion_proof" =
      partInclusion := rfl
  have hindex : intOf (asInt ((memberOrEmpty (partChain earlier cadence) "cadence").member? "entry_index")) =
      some 0 := rfl
  have hcose : coseOf (memberOrEmpty (partChain earlier cadence) "earlier") = b64Decode earlier true :=
    coseOf_eq rfl
  have hcose' : coseOf (memberOrEmpty (partChain earlier cadence) "cadence") = b64Decode cadence true :=
    coseOf_eq rfl
  have hlog : strOf ((memberOrEmpty (partChain earlier cadence) "cadence").member? "log_id") = some "cadence" := rfl
  have hkid : cadenceVerified.kid = partVerified.kid := rfl
  obtain ⟨hroot, -, hconsistent, hincluded⟩ := proofs_part
  rw [← hproof] at hconsistent
  rw [← hproof'] at hincluded
  have hleaf : (leafCheckpoint partPage (partChain earlier cadence) partVerified partCose).Gives
      (earlierVerified, earlierCose) :=
    gives_leafCheckpoint rfl (hcose.trans hearlier) (verifyCheckpoint_of_body checkpointBody_earlier) (by decide) hconsistent
  have hnode : (cadenceRoot partPage (partChain earlier cadence) earlierVerified earlierCose).Gives partNode := by
    rw [cadenceRoot_partChain]
    exact hroot
  have hcadence' : (cadenceCheckpoint partPage (partChain earlier cadence) partVerified partNode).Gives
      cadenceVerified :=
    gives_cadenceCheckpoint (hcose'.trans hcadence) (verifyCheckpoint_of_body checkpointBody_cadence) hkid hlog
      (by rw [hindex]; exact hincluded)
  exact gives_readChain hleaf hnode hcadence'

theorem checkReceipts_part : checkReceipts partPage cadenceVerified (some (.arr [partReceipt])) (some partList) =
    some [checkReceipt partPage partEntry (some partList) partReceipt] := by
  rw [checkReceipts, checkpointEntryHash_part]
  rfl

theorem overall_part : overall [checkReceipt partPage partEntry (some partList) partReceipt] = .pass := by
  rw [overall_eq_pass_iff, List.forall_mem_singleton, checkReceipt_part]
  exact ⟨nofun, _, List.mem_singleton_self _, checkReceipt_part⟩

theorem chainRung_part (earlier cadence : String) :
    chainRung (partChain earlier cadence) earlierVerified partVerified = some (.witnessedInPart, some (1, 2)) := by
  have hpart : strOf ((partChain earlier cadence).member? "extent") = some "part" := rfl
  rw [chainRung, if_pos hpart]
  decide

/-- The receipt of the cadence checkpoint is verified, so the bundle is witnessed in part. -/
theorem rung_part {cose earlier cadence : String} (hcose : b64Decode cose true = some partCose)
    (hearlier : b64Decode earlier true = some earlierCose) (hcadence : b64Decode cadence true = some cadenceCose) :
    ((checkWitnessEvidence partPage (partBundle cose earlier cadence) (some partList)).bind fun out => out.rung) =
      some .witnessedInPart := by
  have htext : statedCose (partBundle cose earlier cadence) = some cose := rfl
  have hstated : mismatch partPage (((partBundle cose earlier cadence).member? "checkpoint").getD .null)
      partVerified = some none := rfl
  have hchain : (chainOf (partBundle cose earlier cadence)).filter
      (fun chain => strOf (chain.member? "state") = some "witnessed") = some (partChain earlier cadence) := rfl
  have hreceipts : (memberOrEmpty (partChain earlier cadence) "cadence").member? "witnesses" =
      some (.arr [partReceipt]) := rfl
  rw [checkWitnessEvidence_eq htext hcose (verifyCheckpoint_of_body checkpointBody_part) hstated, checkCarried, hchain]
  refine rung_checkCadence (readChain_part hearlier hcadence) ?_ overall_part (chainRung_part earlier cadence)
  rw [hreceipts]
  exact checkReceipts_part

/-- The earlier checkpoint and the second one are those of one record and of both. -/
theorem records_of_history_part :
    ∃ proof, StepsAccepted partPage.hash 1 (fun i => if i = 0 then earlierVerified else partVerified) proof ∧
      ((∃ f : ℕ → ℕ, (∀ i ≤ 1, CheckpointOf partPage.hash sampleLog (f i)
          (if i = 0 then earlierVerified else partVerified)) ∧ ∀ i < 1, f i < f (i + 1)) ∨
        partPage.hash.Collision (historyInputs partPage.hash 1
          (fun i => if i = 0 then earlierVerified else partVerified) proof ++ mmrInputs partPage.hash sampleLog)) := by
  have hhistory : History partPage 1 fun i => if i = 0 then earlierVerified else partVerified := by
    refine ⟨fun i hi => ?_, fun i hi => ?_⟩
    · obtain rfl | rfl : i = 0 ∨ i = 1 := by omega
      · exact ⟨earlierCose, verifyCheckpoint_of_body checkpointBody_earlier⟩
      · exact ⟨partCose, verifyCheckpoint_of_body checkpointBody_part⟩
    · obtain rfl : i = 0 := by omega
      exact ⟨rfl, rfl⟩
  have hlast : CheckpointOf partPage.hash sampleLog sampleLog.length partVerified := by
    obtain ⟨-, -, -, hsome, hroot⟩ := checkpointBodies_part
    obtain ⟨root, hbytes⟩ := Option.isSome_iff_exists.mp hsome
    exact ⟨le_rfl, nodeCount_two.symm ▸ rfl, root, hbytes, hroot.symm.trans hbytes⟩
  exact records_of_history hhistory hlast

/-- One of the two records was witnessed. -/
theorem records_of_part_of_two :
    ∃ out cp earlier proof, checkWitnessEvidence partPage (partBundle (String.ofList (Base64.encodeUrl partCose))
        (String.ofList (Base64.encodeUrl earlierCose)) (String.ofList (Base64.encodeUrl cadenceCose)))
        (some partList) = some out ∧ out.rung = some .witnessedInPart ∧ earlier.kid = cp.kid ∧
      ∀ L, CheckpointOf partPage.hash L L.length cp →
        (∃ f, f < L.length ∧ CheckpointOf partPage.hash L f earlier ∧ out.steps = some ((f : ℤ), (L.length : ℤ))) ∨
          partPage.hash.Collision
            (verifyConsistencyInputs partPage.hash earlier.size cp.size proof ++ mmrInputs partPage.hash L) := by
  obtain ⟨out, hout, hrung⟩ := Option.bind_eq_some_iff.mp
    (rung_part (b64Decode_encodeUrl partCose) (b64Decode_encodeUrl earlierCose) (b64Decode_encodeUrl cadenceCose))
  obtain ⟨-, -, cp, -, earlier, proof, -, -, -, -, hkid, -, hrecords⟩ := records_of_part hout hrung
  exact ⟨out, cp, earlier, proof, hout, hrung, hkid, hrecords⟩

end ScittCose.Witness
