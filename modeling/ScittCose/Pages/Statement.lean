import ScittCose.Pages.CborDecode
import ScittCose.Receipt.Verify
import ScittCose.Statement.Build

/-!
# Signed statements on the capsule page (`verifyStatementEd25519` in `hosted_profiles/hosted.py`)

The page reads a statement with its own decoder, takes four elements out of it and checks an Ed25519 signature over
a `Sig_structure` of its own.

It keeps none of the library's other rules, so a statement that verifies on the page verifies in the library exactly
when it `Conforms` to them (`parsed_iff_conforms`). A statement the library builds verifies on the page exactly when
its extra claims have no infinity and no NaN (`verifyStatement_built_iff`): `cbor2` writes these as half floats,
which the page does not read.
-/

namespace ScittCose.Pages

open Cbor
open EncodingRule (IsKey)
open Statement (stmtUnderstood parseSignedStatement)

/-- What the page takes from its platform: a `TextDecoder`, and the Ed25519 of `crypto.subtle` for keys in PEM
text. -/
structure StatementPlatform where
  textDecode : Octets → String
  Key : Type
  importKey : String → Option Key
  verify : Key → Octets → Octets → Bool

section Source

variable (S : StatementPlatform)

/-- `_cborEncodeHead`; no length has more than 32 bits here. -/
def cborEncodeHead (major len : ℕ) : Octets :=
  if len < 24 then [initial major len]
  else if len ≤ 0xff then initial major 24 :: Octets.ofNat 1 len
  else if len ≤ 0xffff then initial major 25 :: Octets.ofNat 2 len
  else initial major 26 :: Octets.ofNat 4 (len % 2 ^ 32)

/-- `_cborEncodeBstr` -/
def cborEncodeBstr (b : Octets) : Octets := cborEncodeHead 2 b.length ++ b

/-- `_cborEncodeTstr` -/
def cborEncodeTstr (s : String) : Octets := cborEncodeHead 3 (Utf8.encode s).length ++ Utf8.encode s

/-- `_sigStructureBytes` -/
def sigStructureBytes (protectedBstr payload : Octets) : Octets :=
  cborEncodeHead 4 4 ++ (cborEncodeTstr "Signature1" ++ (cborEncodeBstr protectedBstr ++
    (cborEncodeBstr [] ++ cborEncodeBstr payload)))

/-- The `alg` of `verifyStatementEd25519`, where it is not `null`. -/
def statementAlg (protectedBstr : Octets) : Option (Option Item) :=
  if protectedBstr = [] then some none
  else
    (cborDecode S.textDecode protectedBstr).map fun r =>
      match r.1 with
      | .map ph => Dict.get ph (.int 1)
      | _ => none

/-- `verifyStatementEd25519` -/
def verifyStatementEd25519 (statementBytes : Octets) (pubkeyPem : String) : Option Bool :=
  match cborDecode S.textDecode statementBytes with
  | some (.tag 18 (.array [.bytes protectedBstr, _, .bytes payload, .bytes signature]), _) =>
    match statementAlg S protectedBstr with
    | some (some (.int (-8))) =>
      (S.importKey pubkeyPem).map fun key => S.verify key (sigStructureBytes protectedBstr payload) signature
    | _ => none
  | _ => none

end Source

/-- The key of the page and that of the library, loaded from one text, verify alike. -/
structure SameKey (S : StatementPlatform) (L : Libraries) (pem : String) : Prop where
  key : ∃ key, L.crypto.loadPublicKey pem = .ok key ∧ ∃ key', S.importKey pem = some key' ∧
    ∀ m signature, L.crypto.verify .edDSA key m signature = S.verify key' m signature

/-- What the page takes from a statement. -/
structure StatementReading where
  protectedBstr : Octets
  header : Dict
  unprotected : Item
  payload : Octets
  signature : Octets

/-- The octets of a statement give a reading. -/
structure StatementReading.Of (S : StatementPlatform) (statementBytes : Octets) (r : StatementReading) : Prop where
  message : ∃ rest, cborDecode S.textDecode statementBytes = some (.tag 18 (.array
    [.bytes r.protectedBstr, r.unprotected, .bytes r.payload, .bytes r.signature]), rest)
  header : ∃ rest, cborDecode S.textDecode r.protectedBstr = some (.map r.header, rest)
  alg : Dict.get r.header (.int 1) = some (.int (-8))

section Reading

variable {S : StatementPlatform} {statementBytes : Octets} {pem : String}

/-- A statement that verifies on the page has a reading that the signature is over. -/
theorem exists_statementReading (h : verifyStatementEd25519 S statementBytes pem = some true) :
    ∃ r key, StatementReading.Of S statementBytes r ∧ S.importKey pem = some key ∧
      S.verify key (sigStructureBytes r.protectedBstr r.payload) r.signature = true := by
  rw [verifyStatementEd25519] at h
  split at h
  · next prot u payload signature rest hmessage =>
      split at h
      · next halg =>
          obtain ⟨key, hkey, hverify⟩ := Option.map_eq_some_iff.mp h
          rw [statementAlg] at halg
          split_ifs at halg with hnil
          · cases halg
          obtain ⟨⟨ph, rest'⟩, hheader, halg⟩ := Option.map_eq_some_iff.mp halg
          dsimp only at halg
          split at halg
          · next ph => exact ⟨⟨prot, ph, u, payload, signature⟩, key, ⟨⟨rest, hmessage⟩, ⟨rest', hheader⟩, halg⟩,
              hkey, hverify⟩
          · cases halg
      · cases h
  · cases h

/-- A reading is all the page goes by. -/
theorem StatementReading.Of.verify_eq {r : StatementReading} (h : r.Of S statementBytes) {key : S.Key}
    (hkey : S.importKey pem = some key) :
    verifyStatementEd25519 S statementBytes pem =
      some (S.verify key (sigStructureBytes r.protectedBstr r.payload) r.signature) := by
  obtain ⟨rest, hmessage⟩ := h.message
  obtain ⟨rest', hheader⟩ := h.header
  have hne : r.protectedBstr ≠ [] := by
    intro hnil
    rw [hnil] at hheader
    cases hheader
  have halg : statementAlg S r.protectedBstr = some (some (.int (-8))) := by
    rw [statementAlg, if_neg hne, hheader]
    exact congrArg some h.alg
  rw [verifyStatementEd25519, hmessage]
  simp only [halg, hkey, Option.map_some]

end Reading

/-! ## The octets that are signed -/

theorem cborEncodeHead_eq {major len : ℕ} (h : len < 2 ^ 32) : cborEncodeHead major len = head major len := by
  rw [cborEncodeHead, head, Nat.mod_eq_of_lt h]
  split_ifs <;> first | rfl | omega

/-- The page signs what the library signs. -/
theorem sigStructureBytes_eq {protectedBstr payload : Octets} (hprot : protectedBstr.length < 2 ^ 32)
    (hpayload : payload.length < 2 ^ 32) :
    sigStructureBytes protectedBstr payload = encode (sigItem protectedBstr payload) := by
  have htext : (Utf8.encode "Signature1").length < 2 ^ 32 := by decide
  rw [sigStructureBytes, cborEncodeTstr, cborEncodeBstr, cborEncodeBstr, cborEncodeBstr,
    cborEncodeHead_eq (by norm_num), cborEncodeHead_eq htext, cborEncodeHead_eq hprot,
    cborEncodeHead_eq (by simp), cborEncodeHead_eq hpayload]
  simp only [sigItem, encode, encodeList, List.append_nil, List.length_cons, List.length_nil, List.append_assoc]

/-! ## Statements that verify in both -/

/-- The rules the page does not check: the size cap, no more and no fewer octets than the values need, in the
message and in its protected header, a map or nothing as unprotected header, labels that are integers or texts, and
the critical labels. -/
def StatementConforms (host : Host) (statementBytes : Octets) : Prop :=
  statementBytes.length ≤ maxMessageBytes ∧ Balanced host statementBytes ∧
    ∃ prot u payload signature d,
      host.read statementBytes = some (.tag 18 (.array [.bytes prot, u, .bytes payload, .bytes signature])) ∧
      (headerEntries u).isSome ∧ host.read prot = some (.map d) ∧ Balanced host prot ∧
      (∀ p ∈ d, IsKey p.1) ∧ Dict.get d (.int hdrAlg) = some (.int (-8)) ∧
      (⟨prot, d, u⟩ : Receipt.Headers).Critical stmtUnderstood

section Agreement

variable {S : StatementPlatform} {L : Libraries} {host : Host} {statementBytes : Octets} {pem : String}
  {r : StatementReading}

/-- What the page reads of a message the library reads is what the library reads. -/
theorem StatementReading.Of.read_eq (h : r.Of S statementBytes) (hlen : statementBytes.length < 2 ^ 53) {v : Item}
    (hv : host.read statementBytes = some v) :
    ∃ u, v = .tag 18 (.array [.bytes r.protectedBstr, u, .bytes r.payload, .bytes r.signature]) := by
  obtain ⟨rest, hmessage⟩ := h.message
  rw [Host.read] at hv
  split at hv
  · next i rest' hdecode =>
      obtain ⟨hi, -⟩ := valueOf_of_decode hlen hdecode hmessage
      obtain ⟨m, z, rfl, hm, hz⟩ := valueOf_eq_tag hi
      obtain rfl := eq_of_toNat_num (by norm_num) hm
      obtain ⟨xs, rfl, hxs⟩ := valueOf_eq_array hz
      obtain ⟨x1, xs1, h1, hxs1, rfl⟩ := List.forall₂_cons_right_iff.mp hxs
      obtain ⟨x2, xs2, -, hxs2, rfl⟩ := List.forall₂_cons_right_iff.mp hxs1
      obtain ⟨x3, xs3, h3, hxs3, rfl⟩ := List.forall₂_cons_right_iff.mp hxs2
      obtain ⟨x4, xs4, h4, hxs4, rfl⟩ := List.forall₂_cons_right_iff.mp hxs3
      obtain rfl := List.forall₂_nil_right_iff.mp hxs4
      obtain rfl := valueOf_eq_bytes h1
      obtain rfl := valueOf_eq_bytes h3
      obtain rfl := valueOf_eq_bytes h4
      rw [Host.value] at hv
      obtain ⟨w, hw, hv⟩ := Option.bind_eq_some_iff.mp hv
      rw [Host.untag_of_ne (by norm_num) (by norm_num), host.tagged_sign1] at hv
      obtain rfl := Option.some.inj hv
      rw [Host.value] at hw
      obtain ⟨ys, hys, rfl⟩ := Option.map_eq_some_iff.mp hw
      simp only [Host.valueList, Host.value, Option.bind_eq_bind, Option.bind_some, Option.bind_eq_some_iff] at hys
      obtain ⟨zs, ⟨u, -, ws, ⟨vs, ⟨⟨⟩⟩, hws⟩, hzs⟩, hys⟩ := hys
      cases hws
      cases hzs
      cases hys
      exact ⟨u, rfl⟩
  · cases hv

theorem decodeEnvelope_eq_ok_iff {msg : Octets} {p u pay sig : Item} :
    decodeEnvelope L msg = .ok (p, u, pay, sig) ↔ strictDecode L msg = .ok (.tag 18 (.array [p, u, pay, sig])) := by
  rw [decodeEnvelope]
  cases strictDecode L msg with
  | error e => exact iff_of_false (by rintro ⟨⟩) (by rintro ⟨⟩)
  | ok v =>
      constructor
      · intro h
        split at h
        · next hv => cases hv
        · next hv =>
            cases hv
            cases h
            rfl
        all_goals cases h
      · intro h
        cases h
        rfl

/-- A balanced header is decoded as the map it is read as. -/
theorem decodeProtected_eq_ok_iff (hL : L.cbor2.Follows host) {prot : Octets} {d : Dict} (hne : prot ≠ [])
    (hbalanced : Balanced host prot) :
    decodeProtected L prot = .ok d ↔ host.read prot = some (.map d) ∧ ∀ p ∈ d, IsKey p.1 := by
  obtain ⟨v, hv, -⟩ := balanced_iff.mp hbalanced
  obtain ⟨rest, hdecode⟩ := hL.decode_of_read hv
  rw [decodeProtected, if_neg hne, Cbor2.loads, hdecode, hv]
  simp only [Except.map]
  cases v with
  | map ps =>
      simp only
      by_cases hkeys : ∀ p ∈ ps, IsKey p.1
      · rw [if_neg (by simpa using hkeys)]
        constructor
        · intro h
          cases h
          exact ⟨rfl, hkeys⟩
        · rintro ⟨h, -⟩
          cases h
          rfl
      · rw [if_pos (by simpa using hkeys)]
        refine iff_of_false (by rintro ⟨⟩) ?_
        rintro ⟨h, hd⟩
        cases h
        exact hkeys hd
  | _ => exact iff_of_false (by rintro ⟨⟩) (by rintro ⟨⟨⟩, -⟩)

theorem critical_iff {prot : Octets} {d : Dict} {u : Item} (hkeys : ∀ p ∈ d, IsKey p.1) :
    checkCriticalHeaders L d stmtUnderstood = .ok () ↔ (⟨prot, d, u⟩ : Receipt.Headers).Critical stmtUnderstood :=
  @Receipt.checkCriticalHeaders_ok_iff L ⟨prot, d, u⟩ hkeys stmtUnderstood

/-- The elements of a message are no longer than its value. -/
theorem length_le_octets (prot payload signature : Octets) (u : Item) :
    prot.length + payload.length ≤
      host.octets (.tag 18 (.array [.bytes prot, u, .bytes payload, .bytes signature])) := by
  have hbytes : ∀ b : Octets, b.length ≤ host.octets (.bytes b) := length_le_encode_bytes
  have h1 := hbytes prot
  have h3 := hbytes payload
  rw [Host.octets_tag, Host.octets_array]
  simp only [List.map_cons, List.map_nil, List.sum_cons, List.sum_nil]
  omega

/-- An algorithm of an Ed25519 key is EdDSA. -/
theorem eq_of_checkSignature {alg : ℤ} {key : L.crypto.PublicKey} {tbs signature m signature' : Octets}
    (hcheck : checkSignature L alg key tbs signature = .ok ())
    (hkey : L.crypto.verify .edDSA key m signature' = true) : alg = -8 := by
  have hok := checkSignature_isOk (L := L) alg key tbs signature
  rw [hcheck] at hok
  cases ha : Alg.ofCode alg with
  | none => rw [ha] at hok; cases hok
  | some a =>
      rw [ha] at hok
      have hverify : L.crypto.verify a key tbs signature = true := hok.symm
      have hkind : a.kind = Alg.edDSA.kind :=
        (L.crypto.kind_of_verify hverify).symm.trans (L.crypto.kind_of_verify hkey)
      rw [Alg.ofCode_eq_some_iff.mp ha]
      cases a with
      | edDSA => rfl
      | _ => cases hkind

end Agreement

/-! ## Statements the library builds -/

mutual

/-- No infinity and no NaN at any depth. -/
def FiniteFloats : Item → Prop
  | .array xs => FiniteFloatsList xs
  | .map ps => FiniteFloatsPairs ps
  | .tag _ x => FiniteFloats x
  | .float _ bits => IsFinite bits
  | _ => True

/-- In no member. -/
def FiniteFloatsList : List Item → Prop
  | [] => True
  | x :: xs => FiniteFloats x ∧ FiniteFloatsList xs

/-- In no key and no value. -/
def FiniteFloatsPairs : List (Item × Item) → Prop
  | [] => True
  | (k, v) :: ps => FiniteFloats k ∧ FiniteFloats v ∧ FiniteFloatsPairs ps

end

theorem finiteFloatsList_iff {xs : List Item} : FiniteFloatsList xs ↔ ∀ x ∈ xs, FiniteFloats x := by
  induction xs with
  | nil => simp [FiniteFloatsList]
  | cons x xs ih => simp [FiniteFloatsList, ih]

theorem finiteFloatsPairs_iff {ps : List (Item × Item)} :
    FiniteFloatsPairs ps ↔ ∀ p ∈ ps, FiniteFloats p.1 ∧ FiniteFloats p.2 := by
  induction ps with
  | nil => simp [FiniteFloatsPairs]
  | cons p ps ih =>
      obtain ⟨k, v⟩ := p
      simp [FiniteFloatsPairs, ih, and_assoc]

section Built

variable {S : StatementPlatform} {L : Libraries} {host : Host}

theorem wire_array (xs : List Item) : host.wire (.array xs) = .array (xs.map host.wire) := by
  rw [Host.wire, Host.item, Item.mapFloat]
  congr 1
  induction xs with
  | nil => rfl
  | cons x xs ih => rw [Host.itemList, mapFloatList, ih, List.map_cons, Host.wire]

theorem wire_map (ps : Dict) : host.wire (.map ps) = .map (ps.map fun p => (host.wire p.1, host.wire p.2)) := by
  rw [Host.wire, Host.item, Item.mapFloat]
  congr 1
  induction ps with
  | nil => rfl
  | cons p ps ih =>
      obtain ⟨k, v⟩ := p
      rw [Host.itemPairs, mapFloatPairs, ih, List.map_cons, Host.wire, Host.wire]

theorem length_le_encode_array {xs : List Item} (h : EncodableList xs) :
    xs.length ≤ (encode (.array xs)).length := by
  have hlist : xs.length ≤ (encodeList xs).length := by
    induction xs with
    | nil => exact le_rfl
    | cons x xs ih =>
        have := List.length_pos_of_ne_nil (encode_ne_nil h.1)
        have := ih h.2
        simp only [encodeList, List.length_append, List.length_cons]
        omega
  rw [encode, List.length_append]
  omega

/-- The page has a value for what is written of a caller's value exactly when no float of it is infinite or NaN. -/
theorem isSome_valueOf_wire {v : Item} (hv : host.PlainValue v) (hlen : (host.write v).length < 2 ^ 32) :
    (valueOf S.textDecode (host.wire v)).isSome ↔ FiniteFloats v := by
  have hencodable := Host.encodable_wire hv.fixed (hlen.trans (by norm_num))
  rw [Host.write] at hlen
  induction v using Item.induction with
  | int n =>
      refine iff_of_true ?_ trivial
      rw [Host.wire, Host.item, Host.intItem]
      split_ifs <;> simp [Item.mapFloat, valueOf]
  | bytes b => exact iff_of_true rfl trivial
  | text s => exact iff_of_true rfl trivial
  | array xs ih =>
      have hmem := Host.plainValueList_iff.mp hv
      rw [wire_array] at hencodable hlen ⊢
      have hcount := length_le_encode_array hencodable.2
      have hitems := encodableList_iff.mp hencodable.2
      rw [valueOf, if_pos (by omega), Option.isSome_map, isSome_valueOfList, List.forall_mem_map,
        FiniteFloats, finiteFloatsList_iff]
      refine forall₂_congr fun x hx => ih x hx (hmem x hx) ?_ (hitems _ (List.mem_map_of_mem hx))
      exact (length_encode_le_of_mem (List.mem_map_of_mem hx)).trans_lt hlen
  | map ps ih =>
      have hmem := Host.plainValuePairs_iff.mp hv.2
      rw [wire_map] at hencodable hlen ⊢
      have hitems := encodablePairs_iff.mp hencodable.2
      rw [valueOf, Option.isSome_map, isSome_valueOfPairs, List.forall_mem_map, FiniteFloats,
        finiteFloatsPairs_iff]
      refine forall₂_congr fun p hp => ?_
      have hwire := List.mem_map_of_mem (f := fun p : Item × Item => (host.wire p.1, host.wire p.2)) hp
      obtain ⟨hkey, hvalue⟩ := length_encode_lt_of_mem_map hwire
      exact and_congr ((ih p hp).1 (hmem p hp).1 (hkey.trans hlen) (hitems _ hwire).1)
        ((ih p hp).2 (hmem p hp).2 (hvalue.trans hlen) (hitems _ hwire).2)
  | tag n x _ => exact hv.elim
  | bool b => exact iff_of_true rfl trivial
  | null => exact iff_of_true rfl trivial
  | simple n => exact hv.elim
  | float w bits =>
      obtain ⟨rfl, hdouble⟩ := hv
      have hwire : host.wire (.float 8 bits) = doubleFloat bits := by
        simp only [Host.wire, Host.item, Item.mapFloat, widen_of_isDouble hdouble]
      rw [hwire, doubleFloat]
      change _ ↔ IsFinite bits
      split_ifs with hfin
      · exact iff_of_true rfl hfin
      · refine iff_of_false ?_ hfin
        rw [shortFloat, if_pos hfin]
        split_ifs <;> simp [valueOf]
  | foreign k => exact hv.elim

theorem finiteFloats_headerOf (contentType issuer subject : String) (extra : Dict) (kid : Option Octets) (a : Alg) :
    FiniteFloats (.map (Statement.headerOf contentType (Statement.claimsOf issuer subject extra) kid a)) ↔
      FiniteFloats (.map extra) := by
  cases kid <;> simp [Statement.headerOf, Statement.claimsOf, FiniteFloats, FiniteFloatsPairs]

theorem valueOf_wire_int {n : ℤ} (hlo : -2 ^ 53 < n) (hhi : n < 2 ^ 53) :
    valueOf S.textDecode (host.wire (.int n)) = some (.int n) := by
  have hwire : host.wire (.int n) = .int n := by
    rw [Host.wire, Host.item, Host.intItem, if_neg (by omega), if_neg (by omega)]
    rfl
  rw [hwire]
  obtain hn | hn := lt_or_ge n 0
  · have hflip : Js.num (-1 - n) = -1 - n := Js.num_eq (by omega) (by omega)
    rw [valueOf, if_neg (by omega), hflip, sub_sub_cancel, Js.num_eq hlo hhi]
  · rw [valueOf, if_pos hn, Js.num_eq hlo hhi]

/-- The last pair of a key wins. -/
theorem get_foldl_mapSet (ps : List (Item × Item)) (n : ℤ) (value : Item) :
    Dict.get ((ps ++ [(Item.int n, value)]).foldl mapSet []) (.int n) = some value := by
  have hset : ∀ m : List (Item × Item), Dict.get (mapSet m (.int n, value)) (.int n) = some value := by
    intro m
    induction m with
    | nil => simp [mapSet, Dict.get]
    | cons q m ih =>
        obtain ⟨k, w⟩ := q
        rw [mapSet]
        split_ifs with hk
        · have hkey : k = .int n := by
            cases k <;> simp_all [sameValueZero]
          simp [hkey, Dict.get]
        · have hne : Item.int n ≠ k := by
            rintro rfl
            exact hk (by simp [sameValueZero])
          rw [Dict.get, List.lookup_cons, beq_false_of_ne hne]
          exact ih
  rw [List.foldl_append]
  exact hset _

/-- What the page reads of the header of a statement says the algorithm. -/
theorem get_alg_of_valueOf {contentType : String} {claims : Dict} {kid : Option Octets} {v : Item}
    (hv : valueOf S.textDecode (host.wire (.map (Statement.headerOf contentType claims kid .edDSA))) = some v) :
    ∃ ph, v = .map ph ∧ Dict.get ph (.int 1) = some (.int (-8)) := by
  have halg : valueOfPairs S.textDecode [(host.wire (.int hdrAlg), host.wire (.int Alg.edDSA.code))] =
      some [(.int 1, .int (-8))] := by
    rw [valueOfPairs, valueOf_wire_int (by decide) (by decide), valueOf_wire_int (by decide) (by decide)]
    rfl
  rw [wire_map, Statement.headerOf, List.map_append, valueOf] at hv
  obtain ⟨qs, hqs, rfl⟩ := Option.map_eq_some_iff.mp hv
  rw [valueOfPairs_append] at hqs
  obtain ⟨front, -, hqs⟩ := Option.bind_eq_some_iff.mp hqs
  rw [List.map_cons, List.map_nil, halg] at hqs
  cases hqs
  exact ⟨_, rfl, get_foldl_mapSet front 1 (.int (-8))⟩
theorem valueOf_messageOf (protectedBstr payload signature : Octets) :
    valueOf S.textDecode (host.wire (Statement.messageOf protectedBstr payload signature)) =
      some (.tag 18 (.array [.bytes protectedBstr, .map [], .bytes payload, .bytes signature])) := by
  have hwire : host.wire (Statement.messageOf protectedBstr payload signature) =
      .tag 18 (.array [.bytes protectedBstr, .map [], .bytes payload, .bytes signature]) := rfl
  have htag : (Js.num (18 : ℕ)).toNat = 18 := toNat_num (by norm_num)
  rw [hwire, valueOf, htag, valueOf, if_pos (by simp)]
  rfl

theorem length_payload_le_messageOf {protectedBstr payload signature : Octets} :
    payload.length ≤ (host.write (Statement.messageOf protectedBstr payload signature)).length := by
  simp only [Statement.messageOf, Host.write, Host.wire, Host.item, Host.itemList, Item.mapFloat, mapFloatList,
    encode, encodeList, List.length_append]
  omega

/-- **Build in Python, verify on the page**: an attached Ed25519 statement within the size cap verifies exactly when
its extra claims have no infinity and no NaN at any depth. -/
theorem verifyStatement_built_iff (hL : L.cbor2.Follows host) (payload : Octets)
    (privatePem publicPem : String) {priv : L.crypto.PrivateKey} {key : L.crypto.PublicKey}
    (hpriv : L.crypto.loadPrivateKey privatePem = .ok priv) (hpub : L.crypto.loadPublicKey publicPem = .ok key)
    (hmatch : L.crypto.Matches priv key) (hkind : L.crypto.kind key = .ed25519) (hs : SameKey S L publicPem)
    (issuer subject contentType : String) {extra : Dict} (hextra : Statement.ExtraClaims host extra)
    (kid : Option Octets) (nonce : ℕ) :
    ∃ msg, Statement.buildSignedStatement L host payload "EdDSA" privatePem issuer subject contentType extra kid
        nonce = .ok msg ∧
      (msg.length ≤ maxMessageBytes →
        (verifyStatementEd25519 S msg publicPem = some true ↔ FiniteFloats (.map extra))) := by
  obtain ⟨key', hkey, page, hpage, hsame⟩ := hs.key
  obtain rfl : key = key' := Except.ok.inj (hpub.symm.trans hkey)
  set header := Statement.headerOf contentType (Statement.claimsOf issuer subject extra) kid .edDSA with hheaderdef
  set protectedBstr := host.write (.map header) with hprot
  set signature := L.crypto.sign .edDSA priv nonce (sigStructure L protectedBstr payload) with hsig
  have hheader : host.PlainValue (.map header) :=
    Statement.plainValue_headerOf (Statement.plainValue_claimsOf hextra issuer subject) contentType kid .edDSA
  refine ⟨host.write (Statement.messageOf protectedBstr payload signature), ?_, fun hlen => ?_⟩
  · have hmerge := Statement.mergeExtraClaims_of_pairwise (fun k hk => (hextra.key k hk).1)
      (Statement.pairwise_claimsOf hextra issuer subject)
    have hprivKind : L.crypto.privateKind priv = Alg.edDSA.kind := (L.crypto.kind_of_matches hmatch).trans hkind
    rw [Statement.buildSignedStatement, hmerge]
    simp only
    rw [signSign1, show Alg.ofName "EdDSA" = some .edDSA from Alg.ofName_name .edDSA]
    simp only [Statement.set_headerOf, hpriv, hprivKind, ne_eq, not_true_eq_false, if_false, hL.dumps_eq]
    rfl
  · have hcap : maxMessageBytes < 2 ^ 32 := by decide
    have hsmall : protectedBstr.length < 2 ^ 32 :=
      ((Statement.length_le_messageOf protectedBstr payload signature).trans hlen).trans_lt hcap
    have hencodable := Host.encodable_wire hheader.fixed (hsmall.trans (by norm_num))
    have hmessage : cborDecode S.textDecode (host.write (Statement.messageOf protectedBstr payload signature)) =
        some (.tag 18 (.array [.bytes protectedBstr, .map [], .bytes payload, .bytes signature]), []) := by
      have hfixed := @Statement.fixed_messageOf host protectedBstr payload signature
      apply cborDecode_encode (Host.encodable_wire hfixed (hlen.trans_lt (hcap.trans (by norm_num))))
      · exact hlen.trans_lt (hcap.trans (by norm_num))
      · exact valueOf_messageOf _ _ _
    have hread : Cbor.decode protectedBstr = some (host.wire (.map header), []) := by
      have h := Cbor.decode_encode hencodable []
      rwa [List.append_nil] at h
    have hfinite := isSome_valueOf_wire (S := S) hheader hsmall
    rw [hheaderdef, finiteFloats_headerOf, ← hheaderdef] at hfinite
    rw [← hfinite]
    constructor
    · intro h
      obtain ⟨r, key', hr, -, -⟩ := exists_statementReading h
      obtain ⟨rest, hrest⟩ := hr.message
      rw [hmessage] at hrest
      have hbstr : protectedBstr = r.protectedBstr := by
        simp only [Option.some.injEq, Prod.mk.injEq, Item.tag.injEq, Item.array.injEq, List.cons.injEq,
          Item.bytes.injEq, true_and] at hrest
        exact hrest.1.1
      obtain ⟨rest', hph⟩ := hr.header
      rw [← hbstr] at hph
      obtain ⟨hvalue, -⟩ := valueOf_of_decode (hsmall.trans (by norm_num)) hread hph
      rw [hvalue]
      rfl
    · intro h
      obtain ⟨v, hv⟩ := Option.isSome_iff_exists.mp h
      obtain ⟨ph, rfl, halg⟩ := get_alg_of_valueOf hv
      have hph : cborDecode S.textDecode protectedBstr = some (.map ph, []) :=
        cborDecode_encode hencodable (hsmall.trans (by norm_num)) hv
      have hr : StatementReading.Of S (host.write (Statement.messageOf protectedBstr payload signature))
          ⟨protectedBstr, ph, .map [], payload, signature⟩ := ⟨⟨[], hmessage⟩, ⟨[], hph⟩, halg⟩
      have hpayload : payload.length < 2 ^ 32 := (length_payload_le_messageOf.trans hlen).trans_lt hcap
      have htbs : sigStructureBytes protectedBstr payload = sigStructure L protectedBstr payload := by
        rw [sigStructureBytes_eq hsmall hpayload, sigStructure]
        exact (L.cbor2.dumps_eq (by simp [sigItem, Writable, WritableList])).symm
      have hedDSA : L.crypto.kind key = Alg.edDSA.kind := hkind
      rw [hr.verify_eq hpage, htbs, ← hsame]
      exact congrArg some (L.crypto.verify_sign hmatch hedDSA nonce _)

end Built

/-! ## The statement with a score -/

/-- A `TextDecoder` of UTF-8, and the Ed25519 of the library under one key. -/
def statementPlatformOf (L : Libraries) (key : L.crypto.PublicKey) (pem : String) : StatementPlatform where
  textDecode b := (Utf8.decode b).getD ""
  Key := Unit
  importKey text := if text = pem then some () else none
  verify _ m signature := L.crypto.verify .edDSA key m signature

theorem sameKey_statementPlatformOf {L : Libraries} {key : L.crypto.PublicKey} {pem : String}
    (hload : L.crypto.loadPublicKey pem = .ok key) : SameKey (statementPlatformOf L key pem) L pem where
  key := ⟨key, hload, (), if_pos rfl, fun _ _ => rfl⟩

theorem sameKey_score :
    SameKey (statementPlatformOf Statement.scoreLibraries () Statement.issuerPublicPem) Statement.scoreLibraries
      Statement.issuerPublicPem :=
  sameKey_statementPlatformOf (Crypto.loadPublicKey_ed25519 _ _ _ _ (Octets.length_ofNat _ _))

/-- The statement with a score is built, and verifies on the page. -/
theorem verifyStatement_built_iff_score :
    ∃ msg, Statement.buildSignedStatement Statement.scoreLibraries .plain [0x2a] "EdDSA"
        Statement.issuerPrivatePem "issuer.example" "artifact" "text/plain" Statement.scoreClaims none 0 = .ok msg ∧
      (msg.length ≤ maxMessageBytes →
        (verifyStatementEd25519 (statementPlatformOf Statement.scoreLibraries () Statement.issuerPublicPem) msg
            Statement.issuerPublicPem = some true ↔ FiniteFloats (.map Statement.scoreClaims))) :=
  verifyStatement_built_iff (L := Statement.scoreLibraries) (Cbor2.ofHost_follows .plain) [0x2a]
    Statement.issuerPrivatePem Statement.issuerPublicPem
    (Crypto.loadPrivateKey_ed25519 _ _ _ _ (Octets.length_ofNat _ _))
    (Crypto.loadPublicKey_ed25519 _ _ _ _ (Octets.length_ofNat _ _)) trivial rfl sameKey_score "issuer.example"
    "artifact" "text/plain" Statement.extraClaims_score none 0

end ScittCose.Pages
