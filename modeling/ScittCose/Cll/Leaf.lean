import ScittCose.Cll.Exact
import ScittCose.Cll.SigningBody
import ScittCose.Receipt.Mint

/-!
# A leaf under a registered checkpoint (`scitt_cose/cll.py`)

`verify_leaf_against_checkpoint` holds a record against a checkpoint and the checkpoint against a receipt of
a Transparency Service. Three logs meet in it: the service's list of entry hashes, the history of
checkpoints and the log of records. Where the service registered no checkpoint of the log outside a history
that was audited link by link, an accepted record is the one at its index (`record_of_verifyLeaf`), and the
record of an honest log, with the receipt minted for its checkpoint, is accepted (`verifyLeaf_honest`).
-/

namespace ScittCose.Cll

open Mmr
open Receipt (ReceiptResult Candidate MintOptions verifyReceipt verifyReceiptInputs vdsOf vdsRfc9162Sha256
  buildReceipt mintEnvelope mintCandidate)
open Merkle (merkleRoot merkleRootInputs rootOf)

/-- The errors of `verify_leaf_against_checkpoint`. -/
inductive LeafError where
  | rootNotHex
  | notIncluded (size : ℤ)
  | noPublicKey
  | checkpointReceipt (error : String)

/-- `InclusionVerification` -/
structure InclusionVerification where
  ok : Bool := false
  status : String := ""
  receiptResult : Option ReceiptResult := none
  errors : List LeafError := []

section Source

variable (L : Libraries)

/-- The step of `verify_leaf_against_checkpoint` on the receipt: its result, whether the step passes, and the
errors; `none` is an exception. -/
def checkReceipt (checkpoint : Checkpoint) :
    Option Octets → Option String → Option (Option ReceiptResult × Bool × List LeafError)
  | none, _ => some (none, true, [])
  | some _, none => some (none, false, [.noPublicKey])
  | some receipt, some tsPublicKeyPem => do
    let entryHash ← checkpoint.tsEntryHash L.hash
    let rr := verifyReceipt L receipt entryHash tsPublicKeyPem
    return (some rr, rr.ok, if rr.ok then [] else rr.errors.map .checkpointReceipt)

/-- `verify_leaf_against_checkpoint`; `none` is an exception. -/
def verifyLeafAgainstCheckpoint (bodyDigest : Octets) (leafIndex : ℤ) (checkpoint : Checkpoint)
    (proof : InclusionProof) (receipt : Option Octets) (tsPublicKeyPem : Option String)
    (currentSize : Option ℤ) : Option InclusionVerification :=
  match checkpoint.rootBytes with
  | none => some { errors := [.rootNotHex] }
  | some root => do
    let inclusionOk := verifyInclusion L.hash root checkpoint.mmrSize leafIndex bodyDigest proof
    let (receiptResult, receiptOk, receiptErrors) ← checkReceipt L checkpoint receipt tsPublicKeyPem
    return {
      ok := inclusionOk && receiptOk
      status := witnessStatusLine checkpoint.mmrSize checkpoint.timestamp currentSize
      receiptResult := receiptResult
      errors := (if inclusionOk then [] else [.notIncluded checkpoint.mmrSize]) ++ receiptErrors }

end Source

section Statement

variable (L : Libraries)

/-- What a run over a leaf, its checkpoint and a receipt hashes. -/
def verifyLeafInputs (bodyDigest : Octets) (leafIndex : ℤ) (checkpoint : Checkpoint) (proof : InclusionProof)
    (receipt : Octets) (tsPublicKeyPem : String) : List Octets :=
  verifyInclusionInputs L.hash checkpoint.mmrSize leafIndex bodyDigest proof ++
    (checkpoint.tsEntryHashInputs L.hash ++
      verifyReceiptInputs L receipt ((checkpoint.tsEntryHash L.hash).getD "") tsPublicKeyPem)

/-- A history of checkpoints, each shown to extend the one before, the last of them of a log. -/
structure Audited (H : Hash) (records : List Digest) (history : ℕ → Checkpoint)
    (links : ℕ → ConsistencyProof) (current : ℕ → Option ℤ) (last : ℕ) : Prop where
  linked : ∀ i < last, (verifyCheckpointChain H (history i) (history (i + 1)) (links i) (current i)).ok = true
  size : (history last).mmrSize = nodeCount records.length
  root : ∃ root, (history last).rootBytes = some root ∧ mmrRoot H records = some root

/-- What a service's log is made of: entry hashes of checkpoints it registered. -/
def Registers (H : Hash) (registered : List Checkpoint) (entriesHex : List String) : Prop :=
  ∀ entryHex ∈ entriesHex, ∃ c ∈ registered, c.tsEntryHash H = some entryHex

/-- What the service, the audit and the log hash. -/
def systemInputs (registered : List Checkpoint) (entriesHex : List String) (records : List Digest)
    (history : ℕ → Checkpoint) (links : ℕ → ConsistencyProof) (last : ℕ) : List Octets :=
  registered.flatMap (Checkpoint.tsEntryHashInputs L.hash) ++
    (merkleRootInputs L.hash (entriesHex.filterMap Octets.fromHex) ++
      (chainInputs L.hash history links last ++ mmrInputs L.hash records))

/-- The inclusion proof of a record among the first `f`. -/
def inclusionProof (H : Hash) (records : List Digest) (f i : ℕ) : InclusionProof :=
  let k := (findContainingPeak (peakPos (0, i)) ((mountains f).map peakPos)).getD 0
  { v := 1
    kind := "inclusion"
    size := nodeCount f
    leafIndex := i
    witness := (siblingHashes H records (0, i) (treeAbove f (0, i))).map Octets.toHex
    peaksLeft := ((peakHashes H (records.take f)).take k).map Octets.toHex
    peaksRight := ((peakHashes H (records.take f)).drop (k + 1)).map Octets.toHex }

end Statement

variable {L : Libraries} {H : Hash}

/-! ## The verdict -/

/-- No run raises an exception, and an accepted leaf passes both steps. -/
theorem exists_verifyLeaf (bodyDigest : Octets) (leafIndex : ℤ) (checkpoint : Checkpoint)
    (proof : InclusionProof) (receipt : Option Octets) (tsPublicKeyPem : Option String)
    (currentSize : Option ℤ) :
    ∃ result, verifyLeafAgainstCheckpoint L bodyDigest leafIndex checkpoint proof receipt tsPublicKeyPem
        currentSize = some result ∧
      (result.ok = true ↔
        (∃ root, checkpoint.rootBytes = some root ∧
          verifyInclusion L.hash root checkpoint.mmrSize leafIndex bodyDigest proof = true) ∧
        ∃ receiptResult errors,
          checkReceipt L checkpoint receipt tsPublicKeyPem = some (receiptResult, true, errors)) := by
  unfold verifyLeafAgainstCheckpoint
  rcases checkpoint.rootBytes with _ | root
  · exact ⟨_, rfl, by simp⟩
  · obtain ⟨⟨receiptResult, receiptOk, receiptErrors⟩, hreceipt⟩ :
        ∃ r, checkReceipt L checkpoint receipt tsPublicKeyPem = some r := by
      unfold checkReceipt
      rcases receipt with _ | receipt
      · exact ⟨_, rfl⟩
      · rcases tsPublicKeyPem with _ | tsPublicKeyPem
        · exact ⟨_, rfl⟩
        · rw [tsEntryHash_eq]
          exact ⟨_, rfl⟩
    rw [hreceipt]
    refine ⟨_, rfl, ?_⟩
    cases receiptOk <;> simp

/-! ## The log of records -/

/-- What `verify_inclusion` accepts under a root of a log is the record at its index. -/
theorem record_of_verifyInclusion {inputs : List Octets} (hno : ¬ H.Collision inputs) {records : List Digest}
    (hlog : mmrInputs H records ⊆ inputs) {root : Octets} {size leafIndex : ℤ} {bodyDigest : Octets}
    {proof : InclusionProof} (hrun : verifyInclusionInputs H size leafIndex bodyDigest proof ⊆ inputs) {f : ℕ}
    (hof : OfLog H inputs records size root f)
    (h : verifyInclusion H root size leafIndex bodyDigest proof = true) :
    ∃ i < f, leafIndex = i ∧ (records.map Subtype.val)[i]? = some bodyDigest := by
  obtain ⟨hf, rfl, rfl, hbagIn⟩ := hof
  obtain ⟨-, -, -, -, i, -, -, hindex, hi, hrecord, -⟩ :=
    honest_of_verifyInclusion hno hlog hf hbagIn hrun h
  exact ⟨i, hi, hindex, hrecord⟩

/-- The honest proof of a record is accepted under the root of every prefix that holds it. -/
theorem verifyInclusion_inclusionProof {records : List Digest} {f i : ℕ} (hi : i < f)
    (hf : f ≤ records.length) (hmax : (nodeCount f : ℤ) < maxMmrSize) :
    verifyInclusion H (bagged H (peakHashes H (records.take f))) (nodeCount f) i (logEntry records i)
      (inclusionProof H records f i) = true := by
  have hpeaks : ∀ p ∈ peakHashes H (records.take f), p.length = 32 := fun p hp => length_of_mem_peakHashes hp
  have hlt : i < records.length := by omega
  -- the mountain over the record, and its place in the row of peaks
  obtain ⟨q, hmem, hb⟩ := @exists_mountain_below f 0 i (by simp) (by simpa using hi)
  obtain ⟨k, hfind, hq⟩ := findContainingPeak_peak hmem (p := (0, i)) hb
  have habove : treeAbove f (0, i) = q := by
    unfold treeAbove
    rw [hfind, Option.bind_some, hq, Option.getD_some]
  unfold inclusionProof
  rw [hfind, Option.getD_some, habove]
  exact verifyInclusion_of_honest hf hi hmax (length_logEntry hlt) (getElem?_logEntry hlt) rfl rfl rfl rfl hq hb
    (mapM_parseDigestHex_toHex fun b hb => length_of_mem_siblingHashes hb)
    (mapM_parseDigestHex_toHex fun b hb => hpeaks b (List.mem_of_mem_take hb))
    (mapM_parseDigestHex_toHex fun b hb => hpeaks b (List.mem_of_mem_drop hb))

/-! ## The log of the service -/

/-- One entry hash is of one checkpoint, up to the signature. -/
theorem sameSigned_of_tsEntryHash {inputs : List Octets} (hno : ¬ H.Collision inputs) {a b : Checkpoint}
    (ha : a.tsEntryHashInputs H ⊆ inputs) (hb : b.tsEntryHashInputs H ⊆ inputs)
    (h : a.tsEntryHash H = b.tsEntryHash H) : a.SameSigned b := by
  rw [tsEntryHash_eq, tsEntryHash_eq, Option.some.injEq, Octets.toHex_inj] at h
  unfold Checkpoint.tsEntryHashInputs at ha hb
  have hdigest := Hash.eq_of_digest_eq hno (ha (by simp)) (hb (by simp)) h
  have hbody := Hash.eq_of_digest_eq hno (ha (by simp)) (hb (by simp)) hdigest
  exact sameSigned_of_signingBody_eq (Utf8.encode_injective hbody)

/-- A receipt accepted for a checkpoint under a root of the service's log is one of a registered checkpoint
with the same signed fields. -/
theorem exists_registered {inputs : List Octets} (hno : ¬ L.hash.Collision inputs) {checkpoint : Checkpoint}
    {entryHex : String} (hentry : checkpoint.tsEntryHash L.hash = some entryHex) {receipt : Octets}
    {tsPublicKeyPem : String} (hok : (verifyReceipt L receipt entryHex tsPublicKeyPem).ok = true)
    (hvds : vdsOf L receipt = some vdsRfc9162Sha256) {root : String}
    (hroot : (verifyReceipt L receipt entryHex tsPublicKeyPem).root = some root)
    {registered : List Checkpoint} {entriesHex : List String}
    (hregisters : Registers L.hash registered entriesHex) (hlog : merkleRoot L.hash entriesHex = some root)
    (hrun : verifyReceiptInputs L receipt entryHex tsPublicKeyPem ⊆ inputs)
    (hlogIn : merkleRootInputs L.hash (entriesHex.filterMap Octets.fromHex) ⊆ inputs)
    (hownIn : checkpoint.tsEntryHashInputs L.hash ⊆ inputs)
    (hregisteredIn : ∀ c ∈ registered, c.tsEntryHashInputs L.hash ⊆ inputs) :
    ∃ c ∈ registered, c.SameSigned checkpoint := by
  obtain ⟨e, leafEntry, cs, c, h⟩ := Receipt.exists_accepted hok hvds
  obtain ⟨entries, hentries, rfl⟩ := Merkle.merkleRoot_eq_some_iff.mp hlog
  have hfilter : entriesHex.filterMap Octets.fromHex = entries := by
    have := congrArg (List.filterMap id) (Octets.mapM_eq_some_iff.mp hentries)
    simpa [List.filterMap_map] using this
  rw [hfilter] at hlogIn
  rw [h.result] at hroot
  have hc : c.root L.hash leafEntry = rootOf L.hash entries := Octets.toHex_inj.mp (Option.some.inj hroot)
  obtain ⟨j, hj, hje, -, -⟩ :=
    Candidate.exists_entry hno (List.Subset.trans h.rootInputs_subset hrun) hlogIn hc
  -- the entry is the hash of a registered checkpoint
  have hjD : j < entriesHex.length := Octets.length_of_mapM hentries ▸ hj
  obtain ⟨c', hc', hhash⟩ := hregisters entriesHex[j] (List.getElem_mem hjD)
  refine ⟨c', hc', sameSigned_of_tsEntryHash hno (hregisteredIn c' hc') hownIn ?_⟩
  have hhex : Octets.fromHex entriesHex[j] = Octets.fromHex entryHex := by
    rw [h.leaf, ← hje]
    exact Octets.getElem_of_mapM hentries _ _
  rw [tsEntryHash_eq, Option.some.injEq] at hhash hentry
  rw [← hhash, ← hentry, Octets.fromHex_toHex, Octets.fromHex_toHex, Option.some.injEq] at hhex
  rw [tsEntryHash_eq, tsEntryHash_eq, hhex]

/-! ## The three logs together -/

/-- A checkpoint that agrees with one of an audited history on the signed fields is one of the log. -/
theorem exists_ofLog {inputs : List Octets} (hno : ¬ H.Collision inputs) {records : List Digest}
    {history : ℕ → Checkpoint} {links : ℕ → ConsistencyProof} {current : ℕ → Option ℤ} {last : ℕ}
    (ha : Audited H records history links current last)
    (hin : chainInputs H history links last ++ mmrInputs H records ⊆ inputs) {i : ℕ} (hi : i ≤ last)
    {checkpoint : Checkpoint} (hsame : (history i).SameSigned checkpoint) {root : Octets}
    (hroot : checkpoint.rootBytes = some root) :
    ∃ f, OfLog H inputs records checkpoint.mmrSize root f := by
  obtain ⟨rootLast, hrootLast, hmmr⟩ := ha.root
  have hbag := bagged_of_mmrRoot hmmr
  have hlast : OfLog H (chainInputs H history links last ++ mmrInputs H records) records
      (history last).mmrSize rootLast records.length := by
    refine ⟨le_rfl, ha.size, ?_, ?_⟩
    · rw [List.take_length]
      exact hbag
    · rw [List.take_length]
      exact fun x hx => List.mem_append_right _ (List.mem_append_right _ hx)
  obtain ⟨root', f, hroot', hof, -⟩ := ofLog_of_chain (fun h => hno (h.mono hin)) ha.linked hrootLast hlast
    (Nat.sub_le last i)
  rw [Nat.sub_sub_self hi] at hroot' hof
  obtain ⟨-, -, -, hsize, hsameRoot, -⟩ := hsame
  have heq : root' = root := by
    have hbytes : (history i).rootBytes = checkpoint.rootBytes := congrArg Octets.fromHex hsameRoot
    exact Option.some.inj (hroot'.symm.trans (hbytes.trans hroot))
  rw [hsize, heq] at hof
  obtain ⟨hf, hsize', hroot'', hbagIn⟩ := hof
  exact ⟨f, hf, hsize', hroot'', List.Subset.trans hbagIn hin⟩

/-- Where a service registered checkpoints of a log only from an audited history, a leaf accepted with the
service's receipt is the log's record at its index, under one of the history's checkpoints, or two inputs
collide. -/
theorem record_of_verifyLeaf {records : List Digest} {history : ℕ → Checkpoint}
    {links : ℕ → ConsistencyProof} {current : ℕ → Option ℤ} {last : ℕ}
    (ha : Audited L.hash records history links current last) {registered : List Checkpoint}
    {entriesHex : List String} (hregisters : Registers L.hash registered entriesHex) {checkpoint : Checkpoint}
    (hhistory : ∀ c ∈ registered, c.logId = checkpoint.logId → ∃ i ≤ last, c = history i)
    {bodyDigest : Octets} {leafIndex : ℤ} {proof : InclusionProof} {receipt : Octets}
    {tsPublicKeyPem : String} {currentSize : Option ℤ} {result : InclusionVerification}
    (hresult : verifyLeafAgainstCheckpoint L bodyDigest leafIndex checkpoint proof (some receipt)
      (some tsPublicKeyPem) currentSize = some result)
    (hok : result.ok = true) (hvds : vdsOf L receipt = some vdsRfc9162Sha256) {root : String}
    (hroot : result.receiptResult.bind ReceiptResult.root = some root)
    (hlog : merkleRoot L.hash entriesHex = some root) :
    (∃ i ≤ last, history i ∈ registered ∧ (history i).SameSigned checkpoint) ∧
        (∃ k : ℕ, leafIndex = k ∧ (records.map Subtype.val)[k]? = some bodyDigest) ∨
      L.hash.Collision
        (verifyLeafInputs L bodyDigest leafIndex checkpoint proof receipt tsPublicKeyPem ++
          systemInputs L registered entriesHex records history links last) := by
  refine or_iff_not_imp_right.mpr fun hno => ?_
  set inputs := verifyLeafInputs L bodyDigest leafIndex checkpoint proof receipt tsPublicKeyPem ++
    systemInputs L registered entriesHex records history links last with hinputs
  -- what each part of the run hashes
  have hall : inputs ⊆ inputs := List.Subset.refl _
  conv at hall => lhs; rw [hinputs, verifyLeafInputs, systemInputs]
  simp only [List.append_subset] at hall
  obtain ⟨⟨hinclIn, hownIn, hreceiptIn⟩, hregisteredIn, hentriesIn, hchainIn, hrecordsIn⟩ := hall
  -- the two steps of the verifier
  obtain ⟨entryHex, hentry⟩ : ∃ entryHex, checkpoint.tsEntryHash L.hash = some entryHex :=
    ⟨_, tsEntryHash_eq L.hash checkpoint⟩
  rw [hentry, Option.getD_some] at hreceiptIn
  unfold verifyLeafAgainstCheckpoint checkReceipt at hresult
  rcases hbytes : checkpoint.rootBytes with _ | rootBytes
  · rw [hbytes] at hresult
    obtain rfl := Option.some.inj hresult
    cases hok
  rw [hbytes, hentry] at hresult
  obtain rfl := Option.some.inj hresult
  simp only [Bool.and_eq_true] at hok
  obtain ⟨hinclusion, hreceipt⟩ := hok
  obtain ⟨c, hc, hsame⟩ := exists_registered hno hentry hreceipt hvds hroot hregisters hlog hreceiptIn
    hentriesIn hownIn
    fun c hc x hx => hregisteredIn (List.mem_flatMap.mpr ⟨c, hc, hx⟩)
  obtain ⟨i, hi, rfl⟩ := hhistory c hc hsame.2.2.1
  obtain ⟨f, hof⟩ := exists_ofLog hno ha (List.append_subset.mpr ⟨hchainIn, hrecordsIn⟩) hi hsame hbytes
  obtain ⟨k, -, hk, hrecord⟩ := record_of_verifyInclusion hno hrecordsIn hinclIn hof hinclusion
  exact ⟨⟨i, hi, hc, hsame⟩, k, hk, hrecord⟩

/-! ## The honest system -/

section Honest

variable {a : Alg} {priv : L.crypto.PrivateKey} {pub : L.crypto.PublicKey} {publicPem : String}

/-- A checkpoint of a log under its own entry in the service's log: the honest inclusion proof and the minted
receipt pass. -/
theorem verifyLeaf_of_mint {records : List Digest} {f i : ℕ} (hi : i < f) (hf : f ≤ records.length)
    (hmax : (nodeCount f : ℤ) < maxMmrSize) {checkpoint : Checkpoint}
    (hsize : checkpoint.mmrSize = nodeCount f)
    (hbytes : checkpoint.rootBytes = some (bagged L.hash (peakHashes L.hash (records.take f))))
    {entries : List Octets} (hlen : entries.length < 2 ^ 60) {j : ℕ} (hj : j < entries.length)
    (hentry : checkpoint.tsEntryHash L.hash = some (Octets.toHex entries[j])) {o : MintOptions}
    (hiat : ∀ n ∈ o.iat, -2 ^ 63 ≤ n ∧ n < 2 ^ 63)
    (hpub : L.crypto.loadPublicKey publicPem = .ok pub) (hmatch : L.crypto.Matches priv pub)
    (hkind : L.crypto.kind pub = a.kind) (nonce : ℕ) {receipt : Octets}
    (hreceipt : receipt = Cbor.encode (mintEnvelope o a (mintCandidate L.hash entries hlen j hj)
      (L.crypto.sign a priv nonce (Cbor.encode (sigItem (Cbor.encode (.map (o.signed a)))
        (rootOf L.hash entries))))).item)
    (hcap : receipt.length ≤ maxMessageBytes) (currentSize : Option ℤ) :
    ∃ rr, rr.root = some (Octets.toHex (rootOf L.hash entries)) ∧
      verifyLeafAgainstCheckpoint L (logEntry records i) i checkpoint (inclusionProof L.hash records f i)
        (some receipt) (some publicPem) currentSize =
      some { ok := true
             status := witnessStatusLine checkpoint.mmrSize checkpoint.timestamp currentSize
             receiptResult := some rr
             errors := [] } := by
  have hinclusion := verifyInclusion_inclusionProof (H := L.hash) hi hf hmax
  have hverify := Receipt.verifyReceipt_mintCandidate hlen hj (Octets.fromHex_toHex entries[j]) hiat hpub
    hmatch hkind nonce hreceipt hcap
  rw [Receipt.surfaceClaims_signed hiat] at hverify
  refine ⟨verifyReceipt L receipt (Octets.toHex entries[j]) publicPem, by rw [hverify], ?_⟩
  unfold verifyLeafAgainstCheckpoint checkReceipt
  rw [hbytes, hentry, hsize]
  dsimp only [Option.bind_eq_bind, Option.bind_some, Option.pure_def]
  rw [hinclusion, hverify]
  rfl

/-- The honest system end to end: under a checkpoint of a log whose entry hash the service logged, each
record the checkpoint covers is accepted with the receipt minted for that entry. -/
theorem verifyLeaf_honest {records : List Digest} {f i : ℕ} (hi : i < f) (hf : f ≤ records.length)
    (hmax : (nodeCount f : ℤ) < maxMmrSize) {bodyDigest : Octets}
    (hrecord : (records.map Subtype.val)[i]? = some bodyDigest) {checkpoint : Checkpoint}
    (hsize : checkpoint.mmrSize = nodeCount f) {root : Octets} (hbytes : checkpoint.rootBytes = some root)
    (hmmr : mmrRoot L.hash (records.take f) = some root) {entriesHex : Receipt.PyList String}
    (hhex : ∀ entryHex ∈ entriesHex.items, (Octets.fromHex entryHex).isSome) {j : ℕ} {entryHex : String}
    (hentry : checkpoint.tsEntryHash L.hash = some entryHex) (hj : entriesHex.items[j]? = some entryHex)
    {privatePem : String} (hpriv : L.crypto.loadPrivateKey privatePem = .ok priv)
    (hpub : L.crypto.loadPublicKey publicPem = .ok pub) (hmatch : L.crypto.Matches priv pub)
    (hkind : L.crypto.kind pub = a.kind) {o : MintOptions} (hiat : ∀ n ∈ o.iat, -2 ^ 63 ≤ n ∧ n < 2 ^ 63)
    (hheader : (Cbor.encode (.map (o.signed a))).length + 2 ^ 13 ≤ maxMessageBytes) (nonce : ℕ)
    (currentSize : Option ℤ) :
    ∃ receipt, buildReceipt L entryHex j entriesHex.items a.name privatePem true o nonce = .ok receipt ∧
      ∃ rr, rr.root = merkleRoot L.hash entriesHex.items ∧
        verifyLeafAgainstCheckpoint L bodyDigest i checkpoint (inclusionProof L.hash records f i)
          (some receipt) (some publicPem) currentSize =
        some { ok := true
               status := witnessStatusLine checkpoint.mmrSize checkpoint.timestamp currentSize
               receiptResult := some rr
               errors := [] } := by
  obtain ⟨entries, hentries⟩ := Octets.exists_mapM hhex
  have hn := Octets.length_of_mapM hentries
  have hlen : entries.length < 2 ^ 60 := hn ▸ entriesHex.length_lt
  obtain ⟨hj', hget⟩ := List.getElem?_eq_some_iff.mp hj
  have hjn : j < entries.length := hn ▸ hj'
  -- the entry is the hash of the checkpoint
  have hown : checkpoint.tsEntryHash L.hash = some (Octets.toHex entries[j]) := by
    have hfrom := Octets.getElem_of_mapM hentries hj' hjn
    rw [hget] at hfrom
    rw [tsEntryHash_eq, Option.some.injEq] at hentry
    rw [← hentry, Octets.fromHex_toHex, Option.some.injEq] at hfrom
    rw [tsEntryHash_eq, hfrom]
  have hprivKind : L.crypto.privateKind priv = a.kind := (L.crypto.kind_of_matches hmatch).trans hkind
  have hroot : merkleRoot L.hash entriesHex.items = some (Octets.toHex (rootOf L.hash entries)) :=
    Merkle.merkleRoot_eq_some_iff.mpr ⟨entries, hentries, rfl⟩
  have hbody : bodyDigest = logEntry records i := by
    rw [getElem?_logEntry (by omega)] at hrecord
    exact (Option.some.inj hrecord).symm
  rw [bagged_of_mmrRoot hmmr] at hbytes
  rw [hbody, hroot]
  refine ⟨_, Receipt.buildReceipt_eq hentries hlen hjn hj hiat hpriv hprivKind nonce, ?_⟩
  exact verifyLeaf_of_mint hi hf hmax hsize hbytes hlen hjn hown hiat hpub hmatch hkind nonce rfl
    (Receipt.length_minted_le hmatch hkind hheader nonce _) currentSize

end Honest

/-! ## Two checkpoints of a log of two records -/

section Sample

open Receipt (mintOptions mintPublicPem mintPrivatePem mintProtected)

/-- The checkpoints a service registered. -/
def sampleRegistered : List Checkpoint :=
  [checkpointAt Hash.sha256 sampleLog 1, checkpointAt Hash.sha256 sampleLog 2]

/-- Their entry hashes. -/
def sampleEntries : List Octets :=
  sampleRegistered.map fun c => Hash.sha256.digest (Hash.sha256.digest (Utf8.encode c.signingBody))

/-- The signature over the root of the entry hashes. -/
def sampleSignature : Octets := Octets.ofNat 64
  0x94e63e12be2305497a78b8ad6f7b3e85976abf55b18c09dd451a5aaea0c4378f1f5063768fe33bebc8fa992aee5df2b8ac892cec0f2f3eedbd65c88ce0ad0502

/-- SHA-256, reference CBOR and the service's key pair and signature. -/
def sampleLibraries : Libraries where
  hash := Hash.sha256
  cbor2 := .reference
  ciborium := .reference
  fxamacker := .reference
  crypto := .ed25519 mintPublicPem mintPrivatePem
    (Cbor.encode (sigItem mintProtected (rootOf Hash.sha256 sampleEntries))) sampleSignature
    (Octets.length_ofNat _ _)
  strRepr := id

theorem tsEntryHash_second (h : 1 < sampleEntries.length) :
    (checkpointAt Hash.sha256 sampleLog 2).tsEntryHash Hash.sha256 = some (Octets.toHex sampleEntries[1]) := by
  simp only [sampleEntries, sampleRegistered, List.map_cons, List.getElem_cons_succ, List.getElem_cons_zero,
    tsEntryHash_eq]

/-- Each entry is the hash of a registered checkpoint. -/
theorem registers_sample : Registers Hash.sha256 sampleRegistered (sampleEntries.map Octets.toHex) := by
  intro entryHex hmem
  obtain ⟨entry, hentry, rfl⟩ := List.mem_map.mp hmem
  obtain ⟨c, hc, rfl⟩ := List.mem_map.mp hentry
  exact ⟨c, hc, tsEntryHash_eq _ _⟩

theorem merkleRoot_sampleEntries : merkleRoot Hash.sha256 (sampleEntries.map Octets.toHex) =
    some (Octets.toHex (rootOf Hash.sha256 sampleEntries)) := by
  have hentries : (sampleEntries.map Octets.toHex).mapM Octets.fromHex = some sampleEntries := by
    rw [Octets.mapM_eq_some_iff, List.map_map]
    exact List.map_congr_left fun b _ => Octets.fromHex_toHex b
  exact Merkle.merkleRoot_eq_some_iff.mpr ⟨_, hentries, rfl⟩

theorem audited_sample :
    Audited Hash.sha256 sampleLog (fun i => checkpointAt Hash.sha256 sampleLog (i + 1))
      (fun _ => consistencyProof Hash.sha256 sampleLog 1 2) (fun _ => none) 1 where
  linked i hi := by
    obtain rfl : i = 0 := by omega
    exact verifyCheckpointChain_sample
  size := rfl
  root := by
    refine ⟨_, Octets.fromHex_toHex _, mmrRoot_eq ?_⟩
    rw [show sampleLog.length = 2 from rfl, nodeCount_two]
    decide

theorem header_sample :
    (Cbor.encode (.map (mintOptions.signed .edDSA))).length + 2 ^ 13 ≤ maxMessageBytes := by
  decide +kernel

theorem nodeCount_two_lt : (nodeCount 2 : ℤ) < maxMmrSize := by
  rw [nodeCount_two]
  decide

theorem mmrRoot_sample :
    mmrRoot Hash.sha256 (sampleLog.take 2) =
      some (bagged Hash.sha256 (peakHashes Hash.sha256 (sampleLog.take 2))) :=
  mmrRoot_eq (nodeCount_lt_of_lt_maxMmrSize nodeCount_two_lt)

/-- The second record is accepted under the second checkpoint. -/
theorem verifyLeaf_honest_second :
    ∃ entryHex receipt,
      buildReceipt sampleLibraries entryHex 1 (sampleEntries.map Octets.toHex) "EdDSA" mintPrivatePem true
          mintOptions 0 = .ok receipt ∧
        ∃ rr, rr.root = merkleRoot sampleLibraries.hash (sampleEntries.map Octets.toHex) ∧
          verifyLeafAgainstCheckpoint sampleLibraries (logEntry sampleLog 1) (1 : ℕ)
            (checkpointAt Hash.sha256 sampleLog 2) (inclusionProof Hash.sha256 sampleLog 2 1) (some receipt)
            (some mintPublicPem) none =
          some { ok := true
                 status := witnessStatusLine (nodeCount 2) "2026-01-01T00:00:00Z" none
                 receiptResult := some rr
                 errors := [] } :=
  ⟨_, @verifyLeaf_honest sampleLibraries .edDSA () () mintPublicPem sampleLog 2 1 one_lt_two le_rfl
    nodeCount_two_lt (logEntry sampleLog 1) rfl (checkpointAt Hash.sha256 sampleLog 2) rfl _
    (Octets.fromHex_toHex _) mmrRoot_sample ⟨sampleEntries.map Octets.toHex, by decide⟩
    (fun entryHex hmem => by
      obtain ⟨entry, -, rfl⟩ := List.mem_map.mp hmem
      rw [Octets.fromHex_toHex]
      rfl)
    1 _ (tsEntryHash_eq _ _) rfl mintPrivatePem
    (Crypto.loadPrivateKey_ed25519 _ _ _ _ (Octets.length_ofNat _ _))
    (Crypto.loadPublicKey_ed25519 _ _ _ _ (Octets.length_ofNat _ _)) trivial rfl mintOptions (by decide)
    header_sample 0 none⟩

/-- The receipt of the second checkpoint's entry hash. -/
def sampleReceipt : Octets :=
  Cbor.encode (mintEnvelope mintOptions .edDSA
    (mintCandidate Hash.sha256 sampleEntries (by decide) 1 (by decide))
    (sampleLibraries.crypto.sign .edDSA () 0
      (Cbor.encode (sigItem (Cbor.encode (.map (mintOptions.signed .edDSA)))
        (rootOf Hash.sha256 sampleEntries))))).item

theorem length_sampleReceipt : sampleReceipt.length ≤ maxMessageBytes :=
  @Receipt.length_minted_le sampleLibraries mintOptions .edDSA _ () () trivial rfl header_sample 0 _

/-- The second record, accepted with that receipt. -/
theorem record_of_verifyLeaf_second :
    (∃ i ≤ 1, checkpointAt Hash.sha256 sampleLog (i + 1) ∈ sampleRegistered ∧
          (checkpointAt Hash.sha256 sampleLog (i + 1)).SameSigned (checkpointAt Hash.sha256 sampleLog 2)) ∧
        (∃ k : ℕ, ((1 : ℕ) : ℤ) = k ∧ (sampleLog.map Subtype.val)[k]? = some (logEntry sampleLog 1)) ∨
      sampleLibraries.hash.Collision
        (verifyLeafInputs sampleLibraries (logEntry sampleLog 1) (1 : ℕ)
            (checkpointAt Hash.sha256 sampleLog 2) (inclusionProof Hash.sha256 sampleLog 2 1) sampleReceipt
            mintPublicPem ++
          systemInputs sampleLibraries sampleRegistered (sampleEntries.map Octets.toHex) sampleLog
            (fun i => checkpointAt Hash.sha256 sampleLog (i + 1))
            (fun _ => consistencyProof Hash.sha256 sampleLog 1 2) 1) := by
  obtain ⟨rr, hroot, hresult⟩ := @verifyLeaf_of_mint sampleLibraries .edDSA () () mintPublicPem sampleLog 2 1
    one_lt_two le_rfl nodeCount_two_lt (checkpointAt Hash.sha256 sampleLog 2) rfl (Octets.fromHex_toHex _)
    sampleEntries (by decide) 1 (by decide) (tsEntryHash_second _) mintOptions (by decide)
    (Crypto.loadPublicKey_ed25519 _ _ _ _ (Octets.length_ofNat _ _)) trivial rfl 0 sampleReceipt rfl
    length_sampleReceipt none
  have hregistered : ∀ c ∈ sampleRegistered, c.logId = (checkpointAt Hash.sha256 sampleLog 2).logId →
      ∃ i ≤ 1, c = checkpointAt Hash.sha256 sampleLog (i + 1) := by
    intro c hc _
    obtain rfl | rfl : c = checkpointAt Hash.sha256 sampleLog 1 ∨ c = checkpointAt Hash.sha256 sampleLog 2 := by
      simpa [sampleRegistered] using hc
    · exact ⟨0, zero_le_one, rfl⟩
    · exact ⟨1, le_rfl, rfl⟩
  have hvds : vdsOf sampleLibraries sampleReceipt = some vdsRfc9162Sha256 :=
    (Receipt.vdsOf_eq (Receipt.read_mintEnvelope (by decide) _ _ _ length_sampleReceipt)).trans
      (Receipt.vds_mintEnvelope _ _ _ _)
  exact record_of_verifyLeaf (L := sampleLibraries) audited_sample registers_sample hregistered hresult rfl hvds
    hroot merkleRoot_sampleEntries

end Sample

end ScittCose.Cll
