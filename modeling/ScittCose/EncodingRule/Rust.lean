import ScittCose.EncodingRule.Machine

/-!
# The receipt encoding rule: the Rust walk (`rust/scitt-cose/src/encoding.rs`)

Arguments are `u64`, positions `usize` on a 64-bit target. `item_simulates` says the walk does what
the Python walk does and never faults.
-/

namespace ScittCose.EncodingRule.Rust

open Checked Machine

/-- `COSE_SIGN1_TAG`. -/
def coseSign1Tag : UInt64 := 18

/-- `head`: the major type, additional information, argument and next position. -/
def head (octets : Octets) (pos : ℕ) : Checked (ℕ × ℕ × UInt64 × ℕ) := do
  let initial ← okOr octets[pos]? "truncated CBOR"
  let major := initial.toNat / 32
  let info := initial.toNat % 32
  let pos ← usizeAdd pos 1
  if info < 24 then .ok (major, info, UInt64.ofNat info, pos)
  else do
    let (width, smallest) ← Machine.width info
    let stop ← usizeAdd pos width
    let bytes ← okOr (getRange octets pos stop) "truncated CBOR"
    let argument := u64OfOctets bytes
    -- a float has no shortest-form rule of its own here: every float is refused
    if major ≠ 7 ∧ argument < smallest then
      .error (.refused "an argument longer than its shortest form")
    else do
      let stop ← usizeAdd pos width
      .ok (major, info, argument, stop)

/-- The branch of `item` for octet and text strings. -/
def string (octets : Octets) (major : ℕ) (argument : UInt64) (pos : ℕ) : Checked ℕ := do
  -- `usize::try_from` cannot fail on a 64-bit target
  let len := argument.toNat
  let left ← usizeSub octets.length pos
  if left < len then .error (.refused "truncated CBOR")
  else do
    let stop ← usizeAdd pos len
    if major = 3 then do
      let text ← usizeSlice octets pos stop
      if Utf8.valid text = false then .error (.refused "a text string that is not valid UTF-8")
      else .ok stop
    else .ok stop

/-- The loop over the pairs of a map; `keys` is the hash set of key octets. -/
def pairs (octets : Octets) (item : ℕ → Checked ℕ) : ℕ → List Octets → ℕ → Checked ℕ
  | 0, _, pos => .ok pos
  | n + 1, keys, pos => do
    let initial ← okOr octets[pos]? "truncated CBOR"
    if initial.toNat / 32 ∉ [0, 1, 3] then
      .error (.refused "a map key that is not an integer or a text string")
    else do
      let keyStart := pos
      let pos ← item pos
      let key ← usizeSlice octets keyStart pos
      if key ∈ keys then .error (.refused "a repeated map key")
      else do
        let pos ← item pos
        pairs octets item n (key :: keys) pos

/-- `item`: check the item at `pos` with `levels` levels left; the result is the position after
it. -/
def item (octets : Octets) : ℕ → ℕ → Bool → Checked ℕ
  | 0, _, _ => .error (.refused "an item nested more than 16 levels deep")
  | levels + 1, pos, outerTag => do
    let (major, info, argument, pos) ← head octets pos
    match major with
    | 0 => .ok pos
    | 1 =>
      if (1 : UInt64) <<< 63 ≤ argument then .error (.refused "an integer below -2^63") else .ok pos
    | 2 | 3 => string octets major argument pos
    | 4 => items (fun pos => item octets levels pos false) argument.toNat pos
    | 5 => pairs octets (fun pos => item octets levels pos false) argument.toNat [] pos
    | 6 =>
      if ¬ (outerTag = true ∧ levels = maxDepth ∧ argument = coseSign1Tag) then
        .error (.refused "a CBOR tag other than the outer tag 18")
      else item octets levels pos false
    | _ =>
      if info ∈ [25, 26, 27] then .error (.refused "a float")
      else if info ∈ [20, 21, 22] then .ok pos
      else .error (.refused "a simple value other than false, true and null")

/-- `check`: refuse `octets` unless it is one item under the receipt encoding rule. -/
def check (octets : Slice) (what : String) (outerTag : Bool) : Checked Unit := do
  let stop ← (item octets.octets (maxDepth + 1) 0 outerTag).mapError fun
    | .refused e => .refused s!"{what}: {e}"
    | .fault => .fault
  if stop ≠ octets.octets.length then
    .error (.refused s!"{what}: trailing octets after the CBOR item")
  else .ok ()

/-! ## The walk does what the Python walk does -/

variable {octets : Octets} {what : String}

theorem head_simulates (hlen : octets.length < 2 ^ 63) (pos : ℕ) :
    Simulates what (SameHead id octets pos) (EncodingRule.head octets pos what) (head octets pos) := by
  rw [EncodingRule.head, head]
  cases hx : octets[pos]? with
  | none => exact .refused _
  | some x =>
      have hpos : pos < octets.length := (List.getElem?_eq_some_iff.mp hx).1
      have hx32 : x.toNat % 32 < 32 := Nat.mod_lt _ (by norm_num)
      have hmajor : x.toNat / 32 < 8 := by have := x.toNat_lt; omega
      have hadd : usizeAdd pos 1 = .ok (pos + 1) := if_pos (by omega)
      simp only [okOr, hadd, bind, Except.bind]
      by_cases h24 : x.toNat % 32 < 24
      · rw [if_pos h24, if_pos h24]
        refine .ok ⟨rfl, by simp [hx], ?_, .inl ⟨h24, rfl⟩, rfl, Nat.le_succ pos, hpos, hmajor⟩
        simp only [UInt64.toNat_ofNat']
        omega
      rw [if_neg h24, if_neg h24]
      obtain ⟨h31, hw⟩ | ⟨h31, hnone, hw⟩ | ⟨w, s, h31, hsome, hs, hw8, hw⟩ :=
        width_spec (not_lt.mp h24) hx32
      · rw [if_pos h31, hw]
        exact .refused _
      · rw [if_neg h31, hnone, hw]
        exact .refused _
      · have hadd' : usizeAdd (pos + 1) w = .ok (pos + 1 + w) := if_pos (by omega)
        simp only [if_neg h31, hsome, hw, hadd']
        by_cases hshort : octets.length < pos + 1 + w
        · have hrange : getRange octets (pos + 1) (pos + 1 + w) = none := if_neg (by omega)
          rw [if_pos hshort, hrange]
          exact .refused _
        have hrange : getRange octets (pos + 1) (pos + 1 + w) =
            some (octets.slice (pos + 1) (pos + 1 + w)) := if_pos (by omega)
        have hspan := Octets.Spans.slice (Nat.le_add_right (pos + 1) w)
          (show _ ≤ octets.length by omega)
        have harg := toNat_u64OfOctets (hspan.length_eq.le.trans hw8)
        simp only [if_neg hshort, hrange]
        refine Simulates.ite ?_ (fun _ => .refused _) fun _ => ?_
        · rw [UInt64.lt_iff_toNat_lt, harg, UInt64.toNat_ofNat', Nat.mod_eq_of_lt hs]
        · exact .ok ⟨rfl, by simp [hx], harg, .inr (mem_of_width hsome), rfl, by dsimp only; omega,
            by dsimp only; omega, hmajor⟩

theorem string_simulates (hlen : octets.length < 2 ^ 63) {major a pos : ℕ} {arg : UInt64}
    (harg : arg.toNat = a) (hpos : pos ≤ octets.length) :
    Simulates what (Advance id octets pos) (EncodingRule.string octets what major a pos)
      (string octets major arg pos) := by
  have hsub : usizeSub octets.length pos = .ok (octets.length - pos) := if_pos hpos
  rw [EncodingRule.string, string, hsub, harg]
  refine Simulates.ite Iff.rfl (fun _ => .refused _) fun hlong => ?_
  have hadd : usizeAdd pos a = .ok (pos + a) := if_pos (by omega)
  have hslice : usizeSlice octets pos (pos + a) = .ok (octets.slice pos (pos + a)) :=
    if_pos ⟨by omega, by omega⟩
  simp only [hadd, hslice, ok_bind, Utf8.valid_eq_isSome_decode]
  refine Simulates.ite Iff.rfl (fun _ => ?_) fun _ => .ok ⟨rfl, by omega, by omega⟩
  cases Utf8.decode (octets.slice pos (pos + a)) with
  | none => exact .refused _
  | some t => exact .ok ⟨rfl, by omega, by omega⟩

theorem pairs_simulates {f : ℕ → Except String ℕ} {g : ℕ → Checked ℕ}
    (hfg : Follows id octets what f g) (n : ℕ) (keys : List Octets) :
    Follows id octets what (EncodingRule.pairs octets what f n keys) (pairs octets g n keys) := by
  induction n generalizing keys with
  | zero => exact fun p hp => .ok ⟨rfl, le_rfl, hp⟩
  | succ n ih =>
      intro p hp
      rw [EncodingRule.pairs, pairs, id_eq]
      cases octets[p]? with
      | none => exact .refused _
      | some x =>
          refine Simulates.ite Iff.rfl (fun _ => .refused _) fun _ => ?_
          refine (hfg p hp).bind ?_
          rintro k _ ⟨rfl, hpk, hk⟩
          have hslice : usizeSlice octets p k = .ok (octets.slice p k) := if_pos ⟨hpk, hk⟩
          rw [id_eq, hslice]
          refine Simulates.ite Iff.rfl (fun _ => .refused _) fun _ => ?_
          refine (hfg k hk).bind ?_
          rintro v _ ⟨rfl, hkv, hv⟩
          exact (ih _ v hv).mono fun _ _ h => h.from_le (hpk.trans hkv)

/-- From every position the Rust walk does what the Python walk does. -/
theorem item_simulates (hlen : octets.length < 2 ^ 63) (levels : ℕ) (outerTag : Bool) :
    Follows id octets what (fun p => EncodingRule.item octets what levels p outerTag)
      (fun p => item octets levels p outerTag) := by
  induction levels generalizing outerTag with
  | zero => exact fun _ _ => .refused _
  | succ levels ih =>
      intro p hp
      simp only [EncodingRule.item, item, id_eq]
      refine (head_simulates hlen p).bind ?_
      rintro ⟨major, a, pos⟩ ⟨_, info, arg, _⟩ ⟨rfl, hinfo, harg, hdirect, rfl, hle, hpos, hmajor⟩
      dsimp only [id_eq] at hinfo harg hdirect hle hpos hmajor ⊢
      interval_cases major
      · -- unsigned integer
        exact .ok ⟨rfl, hle, hpos⟩
      · -- negative integer
        refine Simulates.ite ?_ (fun _ => .refused _) fun _ => .ok ⟨rfl, hle, hpos⟩
        rw [UInt64.le_iff_toNat_le, harg]
        rfl
      · -- octet string
        exact (string_simulates hlen harg hpos).mono fun _ _ h => h.from_le hle
      · -- text string
        exact (string_simulates hlen harg hpos).mono fun _ _ h => h.from_le hle
      · -- array
        rw [← harg]
        exact (items_simulates (ih false) _ pos hpos).mono fun _ _ h => h.from_le hle
      · -- map
        rw [← harg]
        exact (pairs_simulates (ih false) _ [] pos hpos).mono fun _ _ h => h.from_le hle
      · -- tag
        refine Simulates.ite ?_ (fun _ => .refused _) fun _ =>
          (ih false pos hpos).mono fun _ _ h => h.from_le hle
        rw [← harg, coseSign1Tag, EncodingRule.coseSign1Tag, ← UInt64.toNat_inj]
        rfl
      · -- simple value or float
        change Simulates what _ (ite _ _ (ite _ _ _)) (ite _ _ (ite _ _ _))
        rw [← hinfo]
        refine Simulates.ite Iff.rfl (fun _ => .refused _) fun hfloat => ?_
        have hsimple : ¬ (a ∉ [20, 21, 22] ∨ info = 24) ↔ info ∈ [20, 21, 22] := by
          simp only [List.mem_cons, List.not_mem_nil, or_false] at hdirect hfloat ⊢
          omega
        by_cases hin : info ∈ [20, 21, 22]
        · rw [if_pos hin, if_neg (hsimple.mpr hin)]
          exact .ok ⟨rfl, hle, hpos⟩
        · rw [if_neg hin, if_pos (not_not.mp (mt hsimple.mp hin))]
          exact .refused _

/-- The Rust walk is the Python walk, messages included, and it never faults. -/
theorem check_eq (octets : Slice) (what : String) (outerTag : Bool) :
    check octets what outerTag =
      (EncodingRule.check octets.octets what outerTag).mapError Stop.refused := by
  have h := @item_simulates octets.octets what octets.length_lt (maxDepth + 1) outerTag 0 (Nat.zero_le _)
  dsimp only [id_eq] at h
  rw [check, EncodingRule.check]
  generalize EncodingRule.item octets.octets what (maxDepth + 1) 0 outerTag = x at h
  generalize item octets.octets (maxDepth + 1) 0 outerTag = y at h
  cases h with
  | refused message => rfl
  | @ok p q h =>
      obtain ⟨rfl, -, -⟩ := h
      rw [id_eq]
      change ite _ _ _ = Except.mapError _ (ite _ _ _)
      split_ifs
      · simp only [Except.mapError, String.append_assoc]
        rfl
      · rfl

end ScittCose.EncodingRule.Rust
