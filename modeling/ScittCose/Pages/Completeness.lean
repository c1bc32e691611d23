import ScittCose.Cll.Browser
import ScittCose.Lib.Sha256
import ScittCose.Pages.Parse

/-!
# The range membership certificate (`checkCompleteness` of `BUNDLE_JS`)

A bundle can carry a proof that its records are the range of a log under `range_root`, and a second proof that
the log of a checkpoint extends that one. The check asks for the second proof only where there is one, so that
a passing certificate is bound to the checkpoint it names under a condition (`bound_of_pass_iff`).

A function of the scripts that throws is `none`; within the check that is a failure, and the message of the
exception is left out of its text. The verifiers of the log are those of `Cll.Browser`.
-/

namespace ScittCose.Pages

open Json (Tree)
open Aac (Status given)

/-- What `AacCrypto.verifyBundle` says of one side of a bundle of the second version. -/
structure Coverage where
  status : String
  findings : Option (List String)

/-- What the check takes from the interpreter and from `AacCrypto`: `Number(value)` and `to - from + 1` of values
that are no integers, SHA-256, and the verifier of the second version, with its interval coverage and its
membership of records. -/
structure Certifier where
  js : Js
  coerce : Tree → Option ℤ
  span : Option Tree → Option Tree → Option Tree
  hash : Hash
  verifyBundle : Tree → Option (Coverage × Coverage)

/-! ## Values -/

/-- A value that is a text. -/
def strOf : Option Tree → Option String
  | some (.str s) => some s
  | _ => none

/-- A number that is an integer. -/
def intOf : Option Tree → Option ℤ
  | some (.int n) => some n
  | _ => none

/-- An array, by a reader of its items. -/
def itemsOf {α : Type} (read : Option Tree → Option α) : Option Tree → Option (List α)
  | some (.arr items) => items.mapM fun t => read (some t)
  | _ => none

/-- `Array.isArray` -/
def isArray : Option Tree → Bool
  | some (.arr _) => true
  | _ => false

/-- `value.length` -/
def lengthOf : Tree → Option Tree
  | .arr items => some (.int items.length)
  | .str s => some (.int (Json.utf16 s).length)
  | .obj fields => fields.lookup "length"
  | _ => none

/-- `a === b` on numbers. -/
def isSameNumber : Option Tree → Tree → Bool
  | some (.int m), .int n => m == n
  | some (.float a), .float b => a == b
  | _, _ => false

/-- `String(value)`, also of `undefined`. -/
def Js.textOf (js : Js) : Option Tree → Option String
  | none => some "undefined"
  | some t => js.text t

section Source

variable (s : Certifier)

/-- `Number(value)`, when it is an integer. -/
def Certifier.number : Option Tree → Option ℤ
  | some (.int n) => some n
  | some t => s.coerce t
  | none => none

/-- `to - from + 1` -/
def Certifier.spanOf : Option Tree → Option Tree → Option Tree
  | some (.int fromSeq), some (.int toSeq) => some (.int (Js.num (Js.num (toSeq - fromSeq) + 1)))
  | fromSeq, toSeq => s.span fromSeq toSeq

/-- `rp` -/
def rangeProof (cc : Tree) : Tree := (cc.member? "range_proof").getD .null

/-- A range proof as `verifyRange` reads it, with the numbers it goes by. -/
def Certifier.readRangeProof (rp : Tree) : Option Cll.RangeProof := do
  let fromSeq ← s.number (rp.member? "from_seq")
  let toSeq ← intOf (rp.member? "to_seq")
  let size ← intOf (rp.member? "size")
  let fromIndex ← intOf (rp.member? "from_index")
  let toIndex ← intOf (rp.member? "to_index")
  let witness ← itemsOf strOf (rp.member? "witness")
  return ⟨fromSeq, toSeq, size, fromIndex, toIndex, witness⟩

/-- `MMR.verifyRange(cc.range_root, rp.from_seq, rp.to_seq, bodyDigests, rp)`: values of another type are
refused. -/
def Certifier.verifyRange (cc : Tree) (bodyDigests : List (Option Tree)) : Bool :=
  (do
    let root ← strOf (cc.member? "range_root")
    let digests ← bodyDigests.mapM strOf
    let proof ← s.readRangeProof (rangeProof cc)
    return MmrJs.verifyRange s.hash root proof.fromSeq proof.toSeq digests proof).getD false

/-- A consistency proof as `verifyConsistency` reads it. -/
def readConsistencyProof (proof : Tree) : Option Cll.ConsistencyProof := do
  let v ← intOf (proof.member? "v")
  let kind ← strOf (proof.member? "kind")
  let sizeA ← intOf (proof.member? "size_a")
  let sizeB ← intOf (proof.member? "size_b")
  let oldPeaks ← itemsOf strOf (proof.member? "old_peaks")
  let witness ← itemsOf (itemsOf strOf) (proof.member? "witness")
  let newPeaks ← itemsOf strOf (proof.member? "new_peaks")
  return ⟨v, kind, sizeA, sizeB, oldPeaks, witness, newPeaks⟩

/-- `MMR.verifyConsistency(cc.range_root, rp.size, cc.checkpoint_root, cc.checkpoint_size, cc.consistency_proof)` -/
def Certifier.verifyConsistency (cc : Tree) : Bool :=
  (do
    let rootA ← strOf (cc.member? "range_root")
    let sizeA ← intOf ((rangeProof cc).member? "size")
    let rootB ← strOf (cc.member? "checkpoint_root")
    let sizeB ← intOf (cc.member? "checkpoint_size")
    let proof ← cc.member? "consistency_proof"
    let proof ← readConsistencyProof proof
    return MmrJs.verifyConsistency s.hash rootA sizeA rootB sizeB proof).getD false

/-- The ids of the records, as they are. -/
def recordIds : Tree → Option (List (Option Tree))
  | .arr items => items.mapM fun r => prop (some r) "capsule_id"
  | _ => none

/-- The checkpoint the log is said to extend to. -/
def checkpointShown (bundle cc : Tree) : Option Tree :=
  let ckpt := orElse (bundle.member? "checkpoint") (.obj [])
  match (ckpt.member? "tree_size").bind given with
  | some size => some size
  | none => cc.member? "checkpoint_size"

/-- What the check adds when there is a consistency proof. -/
def Certifier.bridgeText (bundle cc : Tree) : Option String :=
  if truthy (cc.member? "consistency_proof") then do
    let size ← s.js.textOf (checkpointShown bundle cc)
    return s!" · extends to checkpoint #{size}"
  else return ""

/-- The text of a passing certificate. -/
def boundText (fromSeq toSeq root bridge : String) : String :=
  s!"records {fromSeq}–{toSeq} are present, unaltered, and bound to checkpoint " ++
    s!"{String.ofList (root.toList.take 12)}…{bridge} — this does not show that no other records exist"

/-- What the check says of a certificate; `none` is an exception. -/
def checkCertificate (bundle records cc : Tree) : Option (Status × String) := do
  let rp := rangeProof cc
  if !isArray (rp.member? "witness") then
    return (.fail, "malformed range membership certificate: missing range_proof")
  let fromSeq := rp.member? "from_seq"
  let toSeq := rp.member? "to_seq"
  let count ← s.spanOf fromSeq toSeq
  if !isSameNumber (lengthOf records) count then
    return (.fail, s!"bundle holds {← s.js.textOf (lengthOf records)} records but the range proof claims " ++
      s!"{← s.js.text count} (seq {← s.js.textOf fromSeq}–{← s.js.textOf toSeq})")
  let bodyDigests ← recordIds records
  if !s.verifyRange cc bodyDigests then
    return (.fail, "range proof did not verify — this bundle's claimed records " ++
      s!"{← s.js.textOf fromSeq}–{← s.js.textOf toSeq} are not provably present and unaltered under its cited root")
  if truthy (cc.member? "consistency_proof") && !s.verifyConsistency cc then
    return (.fail, "checkpoint consistency proof did not verify — the cited checkpoint " ++
      "does not provably extend this range's root")
  -- an accepted root is hexadecimal, so its units are its characters
  let root ← strOf (cc.member? "range_root")
  let bridge ← s.bridgeText bundle cc
  return (.pass, boundText (← s.js.textOf fromSeq) (← s.js.textOf toSeq) root bridge)

/-- What the check says of a bundle of the second version. -/
def checkCoverage (interval members : Coverage) : Option (Status × String) :=
  let unsigned :=
    (interval.findings.getD [] ++ members.findings.getD []).contains "checkpoint_unverified"
  if interval.status = "pass" ∧ members.status = "pass" then
    if unsigned then
      some (.skip, "the checkpoint signature is not verified by this check: the records match the checkpoint's " ++
        "root, and whether that checkpoint is genuinely signed is checked under Signed checkpoint · Witness")
    else
      some (.pass, "interval endpoints verified — graph closure and per-record membership are independently verified")
  else if interval.status = "withheld" ∨ members.status = "withheld" then
    some (.skip, "completeness evidence withheld — interval coverage and per-record membership are not " ++
      "cryptographically proven here")
  else do
    let found ← interval.findings
    let texts := found ++ members.findings.getD [""]
    return (.fail, "evidence-bundle completeness verification failed: " ++ ", ".intercalate texts)

/-- Whether a bundle is of the second version. -/
def isSecondVersion (bundle : Tree) : Bool := strOf (bundle.member? "bundle_kind") == some "evidence-bundle/v2"

/-- The certificate of a bundle; what is false in a condition is no certificate. -/
def certificate (bundle : Tree) : Tree := orElse (bundle.member? "completeness_certificate") .null

/-- The records of a bundle. -/
def recordsOf (bundle : Tree) : Tree := orElse (bundle.member? "records") (.arr [])

/-- `checkCompleteness` -/
def checkCompleteness (bundle : Tree) : Option (Status × String) :=
  if isSecondVersion bundle then do
    let (interval, members) ← s.verifyBundle bundle
    checkCoverage interval members
  else do
    let certified ← prop (some bundle) "completeness_certificate"
    if !truthy (lengthOf (recordsOf bundle)) then return (.skip, "empty bundle — nothing to certify")
    if !truthy certified then
      return (.skip, "no range membership certificate in this bundle — the claimed record range and checkpoint are " ++
        "producer-asserted only, not cryptographically proven here. Every capsule that IS present still verifies " ++
        "on its own (see Integrity, above).")
    return (checkCertificate s bundle (recordsOf bundle) (certificate bundle)).getD
      (.fail, "range membership certificate malformed or unverifiable: ")

end Source

/-! ## What a passing certificate shows -/

/-- The certificate names a checkpoint. -/
def NamesCheckpoint (cc : Tree) : Prop :=
  ((cc.member? "checkpoint_root").bind given).isSome ∨ ((cc.member? "checkpoint_size").bind given).isSome

/-- The checkpoint of the certificate is the log of its range. -/
def Coincides (cc : Tree) : Prop :=
  cc.member? "checkpoint_root" = cc.member? "range_root" ∧
    cc.member? "checkpoint_size" = (rangeProof cc).member? "size"

/-- The certificate carries a consistency proof. -/
def HasConsistencyProof (cc : Tree) : Prop := truthy (cc.member? "consistency_proof") = true

/-- The records are those of the range, and the log of the range is that of the checkpoint or a part of it. -/
def Bound (s : Certifier) (bundle : Tree) : Prop :=
  (∃ ids, recordIds (recordsOf bundle) = some ids ∧ s.verifyRange (certificate bundle) ids = true) ∧
    (NamesCheckpoint (certificate bundle) →
      s.verifyConsistency (certificate bundle) = true ∨ Coincides (certificate bundle))

/-- The bundle has records and a certificate, and the range proof of the certificate is accepted. -/
structure AcceptsRange (s : Certifier) (bundle : Tree) : Prop where
  nonempty : truthy (lengthOf (recordsOf bundle)) = true
  certified : truthy (bundle.member? "completeness_certificate") = true
  witness : isArray ((rangeProof (certificate bundle)).member? "witness") = true
  counts : ∃ count, s.spanOf ((rangeProof (certificate bundle)).member? "from_seq")
      ((rangeProof (certificate bundle)).member? "to_seq") = some count ∧
    isSameNumber (lengthOf (recordsOf bundle)) count = true
  accepted : ∃ ids, recordIds (recordsOf bundle) = some ids ∧ s.verifyRange (certificate bundle) ids = true
  shown : (s.js.textOf ((rangeProof (certificate bundle)).member? "from_seq")).isSome ∧
    (s.js.textOf ((rangeProof (certificate bundle)).member? "to_seq")).isSome

section Verdict

variable {s : Certifier} {bundle records cc : Tree} {result : Status × String}

/-- An accepted root is a text. -/
theorem exists_root_of_verifyRange {ids : List (Option Tree)} (h : s.verifyRange cc ids = true) :
    ∃ root, strOf (cc.member? "range_root") = some root := by
  rw [Certifier.verifyRange] at h
  cases hroot : strOf (cc.member? "range_root") with
  | none => rw [hroot] at h; cases h
  | some root => exact ⟨root, rfl⟩

/-- A certificate passes when its range proof is accepted and its consistency proof, if it has one, too. -/
theorem checkCertificate_pass_iff : (∃ detail, checkCertificate s bundle records cc = some (.pass, detail)) ↔
    isArray ((rangeProof cc).member? "witness") = true ∧
      (∃ count, s.spanOf ((rangeProof cc).member? "from_seq") ((rangeProof cc).member? "to_seq") = some count ∧
        isSameNumber (lengthOf records) count = true) ∧
      (∃ ids, recordIds records = some ids ∧ s.verifyRange cc ids = true) ∧
      ((s.js.textOf ((rangeProof cc).member? "from_seq")).isSome ∧
        (s.js.textOf ((rangeProof cc).member? "to_seq")).isSome) ∧
      (HasConsistencyProof cc →
        s.verifyConsistency cc = true ∧ (s.js.textOf (checkpointShown bundle cc)).isSome) := by
  constructor
  · rintro ⟨detail, h⟩
    rw [checkCertificate] at h
    by_cases hwitness : isArray ((rangeProof cc).member? "witness") = true
    · simp only [hwitness, Bool.not_true, Bool.false_eq_true, if_false] at h
      obtain ⟨count, hcount, h⟩ := Option.bind_eq_some_iff.mp h
      by_cases hsame : isSameNumber (lengthOf records) count = true
      · simp only [hsame, Bool.not_true, Bool.false_eq_true, if_false] at h
        obtain ⟨ids, hids, h⟩ := Option.bind_eq_some_iff.mp h
        by_cases haccepted : s.verifyRange cc ids = true
        · simp only [haccepted, Bool.not_true, Bool.false_eq_true, if_false] at h
          refine ⟨hwitness, ⟨count, hcount, hsame⟩, ⟨ids, hids, haccepted⟩, ?_⟩
          by_cases hbridge : (truthy (cc.member? "consistency_proof") && !s.verifyConsistency cc) = true
          · rw [if_pos hbridge] at h
            cases h
          · rw [if_neg hbridge] at h
            obtain ⟨root, -, h⟩ := Option.bind_eq_some_iff.mp h
            obtain ⟨bridge, hbridgeText, h⟩ := Option.bind_eq_some_iff.mp h
            obtain ⟨fromText, hfrom, h⟩ := Option.bind_eq_some_iff.mp h
            obtain ⟨toText, hto, -⟩ := Option.bind_eq_some_iff.mp h
            refine ⟨⟨by rw [hfrom]; rfl, by rw [hto]; rfl⟩, fun hproof => ?_⟩
            rw [Certifier.bridgeText, if_pos (show truthy _ = true from hproof)] at hbridgeText
            obtain ⟨size, hsize, -⟩ := Option.bind_eq_some_iff.mp hbridgeText
            refine ⟨?_, by rw [hsize]; rfl⟩
            simpa [show truthy (cc.member? "consistency_proof") = true from hproof] using hbridge
        · rw [Bool.eq_false_of_not_eq_true haccepted] at h
          obtain ⟨fromText, -, h⟩ := Option.bind_eq_some_iff.mp h
          obtain ⟨toText, -, h⟩ := Option.bind_eq_some_iff.mp h
          cases h
      · rw [Bool.eq_false_of_not_eq_true hsame] at h
        obtain ⟨lengthText, -, h⟩ := Option.bind_eq_some_iff.mp h
        obtain ⟨countText, -, h⟩ := Option.bind_eq_some_iff.mp h
        obtain ⟨fromText, -, h⟩ := Option.bind_eq_some_iff.mp h
        obtain ⟨toText, -, h⟩ := Option.bind_eq_some_iff.mp h
        cases h
    · rw [Bool.eq_false_of_not_eq_true hwitness] at h
      cases h
  · rintro ⟨hwitness, ⟨count, hcount, hsame⟩, ⟨ids, hids, haccepted⟩, ⟨hfrom, hto⟩, hproof⟩
    obtain ⟨root, hroot⟩ := exists_root_of_verifyRange haccepted
    obtain ⟨fromText, hfrom⟩ := Option.isSome_iff_exists.mp hfrom
    obtain ⟨toText, hto⟩ := Option.isSome_iff_exists.mp hto
    have hbridge : (truthy (cc.member? "consistency_proof") && !s.verifyConsistency cc) = false := by
      cases htruthy : truthy (cc.member? "consistency_proof") with
      | false => rfl
      | true => rw [Bool.true_and, (hproof htruthy).1, Bool.not_true]
    have hbridgeText : ∃ text, s.bridgeText bundle cc = some text := by
      rw [Certifier.bridgeText]
      split_ifs with htruthy
      · obtain ⟨size, hsize⟩ := Option.isSome_iff_exists.mp (hproof htruthy).2
        exact ⟨_, by rw [hsize]; rfl⟩
      · exact ⟨_, rfl⟩
    obtain ⟨bridge, hbridgeText⟩ := hbridgeText
    refine ⟨boundText fromText toText root bridge, ?_⟩
    rw [checkCertificate]
    simp only [hwitness, hcount, hsame, hids, haccepted, hbridge, hroot, hbridgeText, hfrom, hto,
      Bool.not_true, Bool.false_eq_true, if_false, Option.bind_eq_bind, Option.bind_some]
    rfl

/-- What the check says of a bundle that is not of the second version. -/
theorem checkCompleteness_pass_iff (hsecond : isSecondVersion bundle = false)
    (h : checkCompleteness s bundle = some result) :
    result.1 = .pass ↔ AcceptsRange s bundle ∧ (HasConsistencyProof (certificate bundle) →
      s.verifyConsistency (certificate bundle) = true ∧
        (s.js.textOf (checkpointShown bundle (certificate bundle))).isSome) := by
  rw [checkCompleteness, hsecond] at h
  obtain ⟨certified, hcertified, h⟩ := Option.bind_eq_some_iff.mp h
  have hmember : certified = bundle.member? "completeness_certificate" := by
    cases bundle with
    | null => cases hcertified
    | _ => exact (Option.some.inj hcertified).symm
  rw [hmember] at h
  by_cases hempty : truthy (lengthOf (recordsOf bundle)) = true
  · simp only [hempty, Bool.not_true, Bool.false_eq_true, if_false] at h
    by_cases hnone : truthy (bundle.member? "completeness_certificate") = true
    · simp only [hnone, Bool.not_true, Bool.false_eq_true, if_false] at h
      have hresult : result.1 = .pass ↔ ∃ detail,
          checkCertificate s bundle (recordsOf bundle) (certificate bundle) = some (.pass, detail) := by
        rw [← Option.some.inj h]
        cases hcheck : checkCertificate s bundle (recordsOf bundle) (certificate bundle) with
        | none => exact iff_of_false nofun fun hpass => nomatch hpass.choose_spec
        | some found =>
            obtain ⟨status, detail⟩ := found
            constructor
            · rintro rfl
              exact ⟨detail, rfl⟩
            · rintro ⟨detail', hdetail⟩
              exact congrArg Prod.fst (Option.some.inj hdetail)
      rw [hresult, checkCertificate_pass_iff]
      constructor
      · rintro ⟨hwitness, hcounts, haccepted, hshown, hproof⟩
        exact ⟨⟨hempty, hnone, hwitness, hcounts, haccepted, hshown⟩, hproof⟩
      · rintro ⟨haccepts, hproof⟩
        exact ⟨haccepts.witness, haccepts.counts, haccepts.accepted, haccepts.shown, hproof⟩
    · rw [Bool.eq_false_of_not_eq_true hnone] at h
      rw [← Option.some.inj h]
      exact iff_of_false nofun fun hpass => hnone hpass.1.certified
  · rw [Bool.eq_false_of_not_eq_true hempty] at h
    rw [← Option.some.inj h]
    exact iff_of_false nofun fun hpass => hempty hpass.1.nonempty

theorem eq_some_of_getD {answer : Option Bool} (h : answer.getD false = true) : answer = some true := by
  cases answer with
  | none => cases h
  | some b => exact congrArg some h

/-- Only a consistency proof that is an object is accepted. -/
theorem hasConsistencyProof_of_verifyConsistency (h : s.verifyConsistency cc = true) :
    HasConsistencyProof cc := by
  obtain ⟨rootA, -, h⟩ := Option.bind_eq_some_iff.mp (eq_some_of_getD h)
  obtain ⟨sizeA, -, h⟩ := Option.bind_eq_some_iff.mp h
  obtain ⟨rootB, -, h⟩ := Option.bind_eq_some_iff.mp h
  obtain ⟨sizeB, -, h⟩ := Option.bind_eq_some_iff.mp h
  obtain ⟨proof, hproof, h⟩ := Option.bind_eq_some_iff.mp h
  obtain ⟨read, hread, -⟩ := Option.bind_eq_some_iff.mp h
  obtain ⟨v, hv, -⟩ := Option.bind_eq_some_iff.mp hread
  unfold HasConsistencyProof
  rw [hproof]
  cases proof with
  | obj fields => rfl
  | _ => cases hv

/-- A passing certificate of a bundle that is not of the second version is bound to the checkpoint it names
exactly when a range proof is not accepted with another checkpoint named and no consistency proof. -/
theorem bound_of_pass_iff (hsecond : isSecondVersion bundle = false)
    (h : checkCompleteness s bundle = some result) :
    (result.1 = .pass → Bound s bundle) ↔
    (AcceptsRange s bundle → NamesCheckpoint (certificate bundle) → ¬ Coincides (certificate bundle) →
      HasConsistencyProof (certificate bundle)) := by
  rw [checkCompleteness_pass_iff hsecond h]
  constructor
  · intro hbound haccepts hnames hother
    by_contra hproof
    obtain hconsistent | hcoincides := (hbound ⟨haccepts, fun hhas => absurd hhas hproof⟩).2 hnames
    · exact hproof (hasConsistencyProof_of_verifyConsistency hconsistent)
    · exact hother hcoincides
  · rintro hcond ⟨haccepts, hproof⟩
    refine ⟨haccepts.accepted, fun hnames => ?_⟩
    by_cases hcoincides : Coincides (certificate bundle)
    · exact .inr hcoincides
    · exact .inl (hproof (hcond haccepts hnames hcoincides)).1

end Verdict

/-- A page with SHA-256, on certificates whose numbers are integers. -/
def sampleCertifier : Certifier where
  js := ⟨fun n => toString n, fun _ => "", fun _ => none, fun s => s⟩
  coerce := fun _ => none
  span := fun _ _ => none
  hash := Hash.sha256
  verifyBundle := fun _ => none

/-- The only record of a log, with the certificate that it is its range. -/
def certifiedBundle (checkpoint : List (String × Tree)) : Tree :=
  let id := String.ofList (List.replicate 64 'a')
  let root := Octets.toHex (Hash.sha256.digest (0 :: List.replicate 32 0xaa))
  .obj [("records", .arr [.obj [("capsule_id", .str id)]]),
    ("completeness_certificate", .obj ([("v", .int 1), ("range_proof", .obj [("from_seq", .int 1),
      ("to_seq", .int 1), ("size", .int 1), ("from_index", .int 0), ("to_index", .int 0), ("witness", .arr [])]),
      ("range_root", .str root)] ++ checkpoint))]

theorem bound_of_pass_iff_unextended :
    ∃ result, checkCompleteness sampleCertifier (certifiedBundle []) = some result ∧
      (result.1 = .pass → Bound sampleCertifier (certifiedBundle [])) := by
  have hsome : (checkCompleteness sampleCertifier (certifiedBundle [])).isSome := by decide +kernel
  obtain ⟨result, hresult⟩ := Option.isSome_iff_exists.mp hsome
  refine ⟨result, hresult, (bound_of_pass_iff (by decide +kernel) hresult).mpr fun _ hnames => ?_⟩
  rcases hnames with hroot | hsize
  · cases hroot
  · cases hsize

/-- Without a consistency proof a certificate passes whatever checkpoint it names. -/
theorem passes_with_foreign_checkpoint :
    let bundle := certifiedBundle [("checkpoint_size", .int 7), ("checkpoint_root", .str "ff"),
      ("consistency_proof", .null)]
    (checkCompleteness sampleCertifier bundle).map Prod.fst = some .pass ∧ ¬ Bound sampleCertifier bundle := by
  intro bundle
  refine ⟨by decide +kernel, fun hbound => ?_⟩
  rcases hbound.2 (.inl rfl) with hconsistent | hcoincides
  · revert hconsistent
    decide +kernel
  · have hsize : some (Tree.int 7) = some (Tree.int 1) := hcoincides.2
    cases hsize

end ScittCose.Pages
