import Mathlib

/-!
# Merkle mountain ranges

A Merkle mountain range over `f` leaves is a row of perfect binary trees of strictly decreasing height,
one for each binary digit of `f`, whose nodes lie in one array in post-order. A node is given by its
height and its first leaf; `pos` is where it lies. `mountains` is the row of `f` leaves, `Below` the
nodes of a tree, `path` the way up from a node to the root of its tree, and `node` the value of a node
over a log.

A tree of a smaller range is below a tree of every larger one (`exists_mountain_of_mem`), which is why
an old peak is still a node of an extended log.
-/

namespace Mmr

/-! ## Counting nodes -/

/-- The binary digits of a number that are one. -/
def popcount (n : ℕ) : ℕ := (Nat.digits 2 n).sum

/-- The nodes of a range over `f` leaves. -/
def nodeCount (f : ℕ) : ℕ := 2 * f - popcount f

@[simp] theorem popcount_zero : popcount 0 = 0 := by
  simp [popcount]

theorem popcount_eq (n : ℕ) : popcount n = n % 2 + popcount (n / 2) := by
  rcases Nat.eq_zero_or_pos n with rfl | hn
  · simp
  · unfold popcount
    rw [Nat.digits_def' one_lt_two hn, List.sum_cons]

theorem popcount_le (n : ℕ) : popcount n ≤ n := by
  induction n using Nat.strong_induction_on with
  | _ n ih =>
      rcases Nat.eq_zero_or_pos n with rfl | hn
      · simp
      · have h := ih (n / 2) (by omega)
        rw [popcount_eq]
        omega

theorem popcount_succ_le (n : ℕ) : popcount (n + 1) ≤ popcount n + 1 := by
  induction n using Nat.strong_induction_on with
  | _ n ih =>
      rw [popcount_eq (n + 1), popcount_eq n]
      rcases Nat.mod_two_eq_zero_or_one n with h | h
      · have hdiv : (n + 1) / 2 = n / 2 := by omega
        rw [hdiv]
        omega
      · have hdiv : (n + 1) / 2 = n / 2 + 1 := by omega
        have hrec := ih (n / 2) (by omega)
        rw [hdiv]
        omega

/-- The digits below and above a power of two count apart. -/
theorem popcount_mul_pow_add (k h : ℕ) {r : ℕ} (hr : r < 2 ^ h) :
    popcount (k * 2 ^ h + r) = popcount k + popcount r := by
  induction h generalizing r with
  | zero =>
      obtain rfl : r = 0 := by simpa using hr
      simp
  | succ h ih =>
      have hpow : k * 2 ^ (h + 1) = 2 * (k * 2 ^ h) := by ring
      have hmod : (k * 2 ^ (h + 1) + r) % 2 = r % 2 := by omega
      have hdiv : (k * 2 ^ (h + 1) + r) / 2 = k * 2 ^ h + r / 2 := by omega
      have hlt : r / 2 < 2 ^ h := by
        rw [pow_succ] at hr
        omega
      rw [popcount_eq, hmod, hdiv, ih hlt, popcount_eq r]
      omega

@[simp] theorem nodeCount_zero : nodeCount 0 = 0 := by
  simp [nodeCount]

theorem nodeCount_lt_succ (f : ℕ) : nodeCount f < nodeCount (f + 1) := by
  have h1 := popcount_succ_le f
  have h2 := popcount_le f
  have h3 := popcount_le (f + 1)
  unfold nodeCount
  omega

theorem nodeCount_strictMono : StrictMono nodeCount := strictMono_nat_of_lt_succ nodeCount_lt_succ

/-- A range of leaves after a multiple of a larger power of two. -/
theorem nodeCount_add {s h r : ℕ} (hs : 2 ^ h ∣ s) (hr : r < 2 ^ h) :
    nodeCount (s + r) = nodeCount s + nodeCount r := by
  obtain ⟨k, rfl⟩ := hs
  have hsum := popcount_mul_pow_add k h hr
  have hzero := popcount_mul_pow_add k h (Nat.two_pow_pos h)
  rw [Nat.add_zero, popcount_zero, Nat.add_zero] at hzero
  rw [mul_comm] at hsum hzero
  have h1 := popcount_le (2 ^ h * k)
  have h2 := popcount_le r
  unfold nodeCount
  omega

/-- A perfect tree. -/
theorem nodeCount_pow (h : ℕ) : nodeCount (2 ^ h) = 2 ^ (h + 1) - 1 := by
  have hpop := popcount_mul_pow_add 1 h (Nat.two_pow_pos h)
  rw [one_mul, Nat.add_zero, popcount_zero] at hpop
  have hone : popcount 1 = 1 := by simp [popcount]
  unfold nodeCount
  rw [hpop, hone, pow_succ]
  omega

/-- A perfect tree after a multiple of twice its leaves. -/
theorem nodeCount_add_pow {s h : ℕ} (hs : 2 ^ (h + 1) ∣ s) :
    nodeCount (s + 2 ^ h) = nodeCount s + (2 ^ (h + 1) - 1) := by
  rw [nodeCount_add hs (Nat.pow_lt_pow_right one_lt_two (Nat.lt_succ_self h)), nodeCount_pow]

theorem nodeCount_lt_pow {r h : ℕ} (hr : r < 2 ^ h) : nodeCount r < 2 ^ (h + 1) - 1 :=
  nodeCount_pow h ▸ nodeCount_strictMono hr

theorem pow_le_nodeCount {r h : ℕ} (hr : 2 ^ h ≤ r) : 2 ^ (h + 1) - 1 ≤ nodeCount r :=
  nodeCount_pow h ▸ nodeCount_strictMono.monotone hr

/-! ## Nodes -/

/-- Where the node of height `h` over the leaves from `s` on lies. -/
def pos (h s : ℕ) : ℕ := nodeCount s + (2 ^ (h + 1) - 2)

theorem pos_zero (s : ℕ) : pos 0 s = nodeCount s := by
  simp [pos]

theorem pos_left (h s : ℕ) : pos (h + 1) s = pos h s + 2 ^ (h + 1) := by
  have h1 : 2 ^ (h + 1) = 2 * 2 ^ h := pow_succ' 2 h
  have h2 : 2 ^ (h + 1 + 1) = 2 * 2 ^ (h + 1) := pow_succ' 2 (h + 1)
  have := Nat.two_pow_pos h
  unfold pos
  omega

theorem pos_right {h s : ℕ} (hs : 2 ^ (h + 1) ∣ s) : pos (h + 1) s = pos h (s + 2 ^ h) + 1 := by
  have h1 : 2 ^ (h + 1) = 2 * 2 ^ h := pow_succ' 2 h
  have h2 : 2 ^ (h + 1 + 1) = 2 * 2 ^ (h + 1) := pow_succ' 2 (h + 1)
  have := Nat.two_pow_pos h
  unfold pos
  rw [nodeCount_add_pow hs]
  omega

theorem nodeCount_le_pos (h s : ℕ) : nodeCount s ≤ pos h s := Nat.le_add_right _ _

/-- The nodes of the tree of height `H` over the leaves from `S` on. -/
inductive Below : ℕ → ℕ → ℕ → ℕ → Prop
  | root (H S : ℕ) : Below H S H S
  | left {H S h s : ℕ} (hb : Below H S h s) : Below (H + 1) S h s
  | right {H S h s : ℕ} (hb : Below H (S + 2 ^ H) h s) : Below (H + 1) S h s

theorem dvd_left {H S : ℕ} (hS : 2 ^ (H + 1) ∣ S) : 2 ^ H ∣ S :=
  (Nat.pow_dvd_pow 2 (Nat.le_succ H)).trans hS

theorem dvd_right {H S : ℕ} (hS : 2 ^ (H + 1) ∣ S) : 2 ^ H ∣ S + 2 ^ H :=
  (Nat.dvd_add_iff_left (dvd_refl _)).mp (dvd_left hS)

/-- The leaves of a node are leaves of the tree. -/
theorem Below.leaves {H S h s : ℕ} (hb : Below H S h s) (hS : 2 ^ H ∣ S) :
    h ≤ H ∧ 2 ^ h ∣ s ∧ S ≤ s ∧ s + 2 ^ h ≤ S + 2 ^ H := by
  induction hb with
  | root H S => exact ⟨le_rfl, hS, le_rfl, le_rfl⟩
  | @left H S h s hb ih =>
      obtain ⟨h1, h2, h3, h4⟩ := ih (dvd_left hS)
      have hpow : 2 ^ (H + 1) = 2 * 2 ^ H := pow_succ' 2 H
      exact ⟨by omega, h2, h3, by omega⟩
  | @right H S h s hb ih =>
      obtain ⟨h1, h2, h3, h4⟩ := ih (dvd_right hS)
      have hpow : 2 ^ (H + 1) = 2 * 2 ^ H := pow_succ' 2 H
      exact ⟨by omega, h2, by omega, by omega⟩

/-- An aligned node over leaves of the tree is below its root. -/
theorem below_of_leaves {H S h s : ℕ} (hS : 2 ^ H ∣ S) (hh : h ≤ H) (hs : 2 ^ h ∣ s) (hle : S ≤ s)
    (hhi : s + 2 ^ h ≤ S + 2 ^ H) : Below H S h s := by
  induction H generalizing S with
  | zero =>
      obtain rfl : h = 0 := by omega
      obtain rfl : s = S := by simp at hhi; omega
      exact .root 0 s
  | succ H ih =>
      have hpow : 2 ^ (H + 1) = 2 * 2 ^ H := pow_succ' 2 H
      rcases Nat.lt_or_ge H h with hlt | hge
      · obtain rfl : h = H + 1 := by omega
        obtain rfl : s = S := by omega
        exact .root _ _
      · -- both halves are made of blocks of `2 ^ h` leaves
        have hblock : 2 ^ h ∣ S + 2 ^ H :=
          (Nat.pow_dvd_pow 2 hge).trans (dvd_right hS)
        rcases Nat.lt_or_ge s (S + 2 ^ H) with hleft | hright
        · apply Below.left
          refine ih (dvd_left hS) hge hle ?_
          obtain ⟨a, rfl⟩ := hs
          obtain ⟨b, hb⟩ := hblock
          rw [hb] at hleft ⊢
          have hab : a < b := lt_of_mul_lt_mul_left' hleft
          calc 2 ^ h * a + 2 ^ h = 2 ^ h * (a + 1) := by ring
            _ ≤ 2 ^ h * b := Nat.mul_le_mul_left _ hab
        · apply Below.right
          exact ih (dvd_right hS) hge hright (by omega)

/-- A node lies in its tree: not before the tree's first node and not after its root. -/
theorem Below.pos_bounds {H S h s : ℕ} (hb : Below H S h s) (hS : 2 ^ H ∣ S) :
    nodeCount S ≤ pos h s ∧ pos h s ≤ pos H S := by
  induction hb with
  | root H S => exact ⟨nodeCount_le_pos H S, le_rfl⟩
  | @left H S h s hb ih =>
      obtain ⟨h1, h2⟩ := ih (dvd_left hS)
      rw [pos_left]
      exact ⟨h1, by omega⟩
  | @right H S h s hb ih =>
      obtain ⟨h1, h2⟩ := ih (dvd_right hS)
      rw [nodeCount_add_pow hS] at h1
      rw [pos_right hS]
      exact ⟨by omega, by omega⟩

/-! ## The row of trees -/

/-- The trees over the `f` leaves from `start` on, tallest first: height and first leaf. -/
def mountainsFrom (start f : ℕ) : List (ℕ × ℕ) :=
  if h : f = 0 then []
  else (f.log2, start) :: mountainsFrom (start + 2 ^ f.log2) (f - 2 ^ f.log2)
termination_by f
decreasing_by
  have := Nat.two_pow_pos f.log2
  omega

/-- The trees of a range. -/
def mountains (f : ℕ) : List (ℕ × ℕ) := mountainsFrom 0 f

theorem mountainsFrom_zero (start : ℕ) : mountainsFrom start 0 = [] := by
  rw [mountainsFrom, dif_pos rfl]

theorem mountainsFrom_pos {start f : ℕ} (hf : f ≠ 0) :
    mountainsFrom start f =
      (f.log2, start) :: mountainsFrom (start + 2 ^ f.log2) (f - 2 ^ f.log2) := by
  rw [mountainsFrom, dif_neg hf]

/-- With the height of the first tree named. -/
theorem mountainsFrom_eq {start f h : ℕ} (hlo : 2 ^ h ≤ f) (hhi : f < 2 ^ (h + 1)) :
    mountainsFrom start f = (h, start) :: mountainsFrom (start + 2 ^ h) (f - 2 ^ h) := by
  have hf : f ≠ 0 := by
    have := Nat.two_pow_pos h
    omega
  have hlog : f.log2 = h := (Nat.log2_eq_iff hf).mpr ⟨hlo, hhi⟩
  rw [mountainsFrom_pos hf, hlog]

/-- Induction over the trees of a range, from the tallest on. -/
theorem mountainInduction {motive : ℕ → ℕ → Prop} (zero : ∀ start, motive start 0)
    (step : ∀ start h r, r < 2 ^ h → motive (start + 2 ^ h) r → motive start (2 ^ h + r))
    (start f : ℕ) : motive start f := by
  induction f using Nat.strong_induction_on generalizing start with
  | _ f ih =>
      rcases Nat.eq_zero_or_pos f with rfl | hf
      · exact zero start
      · have hne : f ≠ 0 := by omega
        have hlo := Nat.log2_self_le hne
        have hhi : f < 2 ^ (f.log2 + 1) := Nat.lt_log2_self
        have hpos := Nat.two_pow_pos f.log2
        rw [pow_succ] at hhi
        have h := step start f.log2 (f - 2 ^ f.log2) (by omega)
          (ih (f - 2 ^ f.log2) (by omega) (start + 2 ^ f.log2))
        rwa [Nat.add_sub_cancel' hlo] at h

theorem mountainsFrom_add {start h r : ℕ} (hr : r < 2 ^ h) :
    mountainsFrom start (2 ^ h + r) = (h, start) :: mountainsFrom (start + 2 ^ h) r := by
  rw [mountainsFrom_eq (Nat.le_add_right _ _) (by rw [pow_succ]; omega), Nat.add_sub_cancel_left]

theorem le_of_mem_mountainsFrom {start f : ℕ} {p : ℕ × ℕ} (hp : p ∈ mountainsFrom start f) :
    start ≤ p.2 := by
  induction start, f using mountainInduction with
  | zero start =>
      rw [mountainsFrom_zero] at hp
      cases hp
  | step start h r hr ih =>
      rw [mountainsFrom_add hr] at hp
      rcases List.mem_cons.mp hp with rfl | hp
      · exact le_rfl
      · exact (Nat.le_add_right _ _).trans (ih hp)

/-- A tree of a range is aligned, within the range and no taller than its leaves allow. -/
theorem mem_mountainsFrom {start f : ℕ} {p : ℕ × ℕ} (hp : p ∈ mountainsFrom start f) {t : ℕ}
    (ht : 2 ^ t ∣ start) (hf : f < 2 ^ t) :
    2 ^ (p.1 + 1) ∣ p.2 ∧ start ≤ p.2 ∧ p.2 + 2 ^ p.1 ≤ start + f ∧ start + f < p.2 + 2 ^ (p.1 + 1) := by
  induction start, f using mountainInduction generalizing t with
  | zero start =>
      rw [mountainsFrom_zero] at hp
      cases hp
  | step start h r hr ih =>
      rw [mountainsFrom_add hr, List.mem_cons] at hp
      have hpow : 2 ^ (h + 1) = 2 * 2 ^ h := pow_succ' 2 h
      have hlt : h < t := (Nat.pow_lt_pow_iff_right one_lt_two).mp (by omega)
      have hdvd : 2 ^ (h + 1) ∣ start := (Nat.pow_dvd_pow 2 hlt).trans ht
      rcases hp with rfl | hp
      · exact ⟨hdvd, le_rfl, by dsimp only; omega, by dsimp only; omega⟩
      · obtain ⟨h1, h2, h3, h4⟩ := ih hp (dvd_right hdvd) hr
        exact ⟨h1, by omega, by omega, by omega⟩

theorem mem_mountains {f : ℕ} {p : ℕ × ℕ} (hp : p ∈ mountains f) :
    2 ^ (p.1 + 1) ∣ p.2 ∧ p.2 + 2 ^ p.1 ≤ f ∧ f < p.2 + 2 ^ (p.1 + 1) := by
  have hf : f < 2 ^ f := Nat.lt_two_pow_self
  obtain ⟨h1, -, h3, h4⟩ := mem_mountainsFrom hp (dvd_zero _) hf
  rw [Nat.zero_add] at h3 h4
  exact ⟨h1, h3, h4⟩

/-- The last tree of a range, and the range before it. -/
theorem mountainsFrom_add_pow {start f h : ℕ} (hf : 2 ^ (h + 1) ∣ f) :
    mountainsFrom start (f + 2 ^ h) = mountainsFrom start f ++ [(h, start + f)] := by
  have hpos := Nat.two_pow_pos h
  induction start, f using mountainInduction with
  | zero start =>
      rw [Nat.zero_add, mountainsFrom_zero, ← Nat.add_zero (2 ^ h), mountainsFrom_add hpos,
        mountainsFrom_zero]
      rfl
  | step start k r hr ih =>
      -- the first tree is taller than the last, and what is left still ends on its height
      have hk : h + 1 ≤ k := by
        by_contra hlt
        have hle : 2 ^ (k + 1) ≤ 2 ^ (h + 1) := Nat.pow_le_pow_right (by omega) (by omega)
        have hge := Nat.le_of_dvd (by have := Nat.two_pow_pos k; omega) hf
        have hpow : 2 ^ (k + 1) = 2 * 2 ^ k := pow_succ' 2 k
        omega
      have hdvd : 2 ^ (h + 1) ∣ 2 ^ k := Nat.pow_dvd_pow 2 hk
      have hrdvd : 2 ^ (h + 1) ∣ r := (Nat.dvd_add_right hdvd).mp hf
      have hroom : r + 2 ^ h < 2 ^ k := by
        obtain ⟨a, rfl⟩ := hrdvd
        obtain ⟨b, hb⟩ := hdvd
        rw [hb] at hr ⊢
        have hab : a + 1 ≤ b := lt_of_mul_lt_mul_left' hr
        have hmul := Nat.mul_le_mul_left (2 ^ (h + 1)) hab
        have hpow : 2 ^ (h + 1) = 2 * 2 ^ h := pow_succ' 2 h
        rw [Nat.mul_add, Nat.mul_one] at hmul
        omega
      rw [Nat.add_assoc, mountainsFrom_add hroom, mountainsFrom_add hr, ih hrdvd, List.cons_append,
        Nat.add_assoc]

theorem mountains_add_pow {s h : ℕ} (hs : 2 ^ (h + 1) ∣ s) :
    mountains (s + 2 ^ h) = mountains s ++ [(h, s)] := by
  unfold mountains
  rw [mountainsFrom_add_pow hs, Nat.zero_add]

/-- Every range but the empty one has a last tree. -/
theorem exists_last {f : ℕ} (hf : f ≠ 0) : ∃ h s, 2 ^ (h + 1) ∣ s ∧ f = s + 2 ^ h := by
  obtain ⟨h, k, hk, rfl⟩ := Nat.exists_eq_two_pow_mul_odd hf
  obtain ⟨j, rfl⟩ := hk
  refine ⟨h, 2 ^ (h + 1) * j, dvd_mul_right _ _, ?_⟩
  rw [pow_succ]
  ring

theorem length_mountainsFrom (start f : ℕ) : (mountainsFrom start f).length = popcount f := by
  induction start, f using mountainInduction with
  | zero start =>
      rw [mountainsFrom_zero, popcount_zero]
      rfl
  | step start h r hr ih =>
      have hpop := popcount_mul_pow_add 1 h hr
      have hone : popcount 1 = 1 := by simp [popcount]
      rw [one_mul, hone] at hpop
      rw [mountainsFrom_add hr, List.length_cons, ih, hpop, Nat.add_comm]

/-- A range has as many trees as its count has ones. -/
theorem length_mountains (f : ℕ) : (mountains f).length = popcount f := length_mountainsFrom 0 f

/-- A root of a range lies within it. -/
theorem pos_lt_nodeCount {f : ℕ} {p : ℕ × ℕ} (hp : p ∈ mountains f) : pos p.1 p.2 < nodeCount f := by
  obtain ⟨hdvd, hle, -⟩ := mem_mountains hp
  have hcount := nodeCount_strictMono.monotone hle
  have hpow : 2 ^ (p.1 + 1) = 2 * 2 ^ p.1 := pow_succ' 2 p.1
  have hpos := Nat.two_pow_pos p.1
  rw [nodeCount_add_pow hdvd] at hcount
  unfold pos
  omega

theorem nodup_mountainsFrom {start f t : ℕ} (ht : 2 ^ t ∣ start) (hf : f < 2 ^ t) :
    (mountainsFrom start f).Nodup := by
  induction start, f using mountainInduction generalizing t with
  | zero start =>
      rw [mountainsFrom_zero]
      exact List.nodup_nil
  | step start h r hr ih =>
      have hlt : h < t := (Nat.pow_lt_pow_iff_right one_lt_two).mp (by omega)
      have hdvd : 2 ^ h ∣ start + 2 ^ h := dvd_right ((Nat.pow_dvd_pow 2 hlt).trans ht)
      have hpos := Nat.two_pow_pos h
      rw [mountainsFrom_add hr, List.nodup_cons]
      refine ⟨fun hmem => ?_, ih hdvd hr⟩
      -- a later tree starts after the first
      obtain ⟨-, hle, -⟩ := mem_mountainsFrom hmem hdvd hr
      dsimp only at hle
      omega

theorem nodup_mountains (f : ℕ) : (mountains f).Nodup :=
  nodup_mountainsFrom (dvd_zero (2 ^ f)) Nat.lt_two_pow_self

/-- Every leaf of a range is in one of its trees. -/
theorem exists_mem_mountainsFrom {start f i : ℕ} (hlo : start ≤ i) (hhi : i < start + f) :
    ∃ p ∈ mountainsFrom start f, p.2 ≤ i ∧ i < p.2 + 2 ^ p.1 := by
  induction start, f using mountainInduction with
  | zero start => omega
  | step start h r hr ih =>
      rw [mountainsFrom_add hr]
      rcases Nat.lt_or_ge i (start + 2 ^ h) with hleft | hright
      · exact ⟨(h, start), List.mem_cons_self, hlo, hleft⟩
      · obtain ⟨p, hp, h1, h2⟩ := ih hright (by omega)
        exact ⟨p, List.mem_cons_of_mem _ hp, h1, h2⟩

/-- A block of leaves of a range is below the root of one of its trees. -/
theorem exists_mountain_below {f h s : ℕ} (hs : 2 ^ h ∣ s) (hle : s + 2 ^ h ≤ f) :
    ∃ p ∈ mountains f, Below p.1 p.2 h s := by
  have hpos := Nat.two_pow_pos h
  obtain ⟨⟨H, S⟩, hp, h1, h2⟩ := exists_mem_mountainsFrom (Nat.zero_le s)
    (show s < 0 + f by omega)
  obtain ⟨hS, hlo, hhi⟩ := mem_mountains hp
  dsimp only at h1 h2 hS hlo hhi
  have hSH : 2 ^ H ∣ S := dvd_left hS
  -- a block taller than the tree would reach past the range
  have hh : h ≤ H := by
    by_contra hlt
    have hH : 2 ^ (H + 1) ∣ s := (Nat.pow_dvd_pow 2 (by omega)).trans hs
    have hle' : 2 ^ (H + 1) ≤ 2 ^ h := Nat.pow_le_pow_right (by omega) (by omega)
    omega
  have hblock : s + 2 ^ h ≤ S + 2 ^ H := by
    obtain ⟨a, rfl⟩ := hs
    obtain ⟨b, hb⟩ : 2 ^ h ∣ S + 2 ^ H := (Nat.pow_dvd_pow 2 hh).trans (dvd_right hS)
    rw [hb] at h2 ⊢
    have hab : a < b := lt_of_mul_lt_mul_left' h2
    calc 2 ^ h * a + 2 ^ h = 2 ^ h * (a + 1) := by ring
      _ ≤ 2 ^ h * b := Nat.mul_le_mul_left _ hab
  exact ⟨(H, S), hp, below_of_leaves hSH hh hs h1 hblock⟩

/-- A tree of a smaller range is below the root of a tree of a larger one. -/
theorem exists_mountain_of_mem {f g : ℕ} (hfg : f ≤ g) {p : ℕ × ℕ} (hp : p ∈ mountains f) :
    ∃ q ∈ mountains g, Below q.1 q.2 p.1 p.2 := by
  obtain ⟨h1, h2, -⟩ := mem_mountains hp
  exact exists_mountain_below (dvd_left h1) (h2.trans hfg)

/-! ## The part before a leaf -/

/-- The maximal nodes of a tree wholly before a leaf, from left to right. -/
def before (lo : ℕ) : ℕ → ℕ → List (ℕ × ℕ)
  | 0, s => if s + 2 ^ 0 ≤ lo then [(0, s)] else []
  | h + 1, s =>
    if s + 2 ^ (h + 1) ≤ lo then [(h + 1, s)] else before lo h s ++ before lo h (s + 2 ^ h)

theorem before_of_le {lo h s : ℕ} (hle : s + 2 ^ h ≤ lo) : before lo h s = [(h, s)] := by
  cases h with
  | zero => rw [before, if_pos hle]
  | succ h => rw [before, if_pos hle]

theorem before_zero {lo s : ℕ} (hlt : lo < s + 2 ^ 0) : before lo 0 s = [] := by
  rw [before, if_neg (by omega)]

theorem before_succ {lo h s : ℕ} (hlt : lo < s + 2 ^ (h + 1)) :
    before lo (h + 1) s = before lo h s ++ before lo h (s + 2 ^ h) := by
  rw [before, if_neg (by omega)]

/-- No node of a tree from a leaf on is before it. -/
theorem before_of_ge {lo h s : ℕ} (hge : lo ≤ s) : before lo h s = [] := by
  induction h generalizing s with
  | zero => exact before_zero (by rw [pow_zero]; omega)
  | succ h ih =>
      have hpos := Nat.two_pow_pos (h + 1)
      rw [before_succ (by omega), ih hge, ih (by omega)]
      rfl

/-- Within one tree they are the trees of the shorter range. -/
theorem before_eq_mountainsFrom {start l h : ℕ} (hl : l < 2 ^ h) :
    before (start + l) h start = mountainsFrom start l := by
  induction h generalizing start l with
  | zero =>
      obtain rfl : l = 0 := by simpa using hl
      rw [before_zero (by simp), mountainsFrom_zero]
  | succ h ih =>
      have hpow : 2 ^ (h + 1) = 2 * 2 ^ h := pow_succ' 2 h
      rw [before_succ (by omega)]
      rcases Nat.lt_or_ge l (2 ^ h) with hlt | hge
      · rw [ih hlt, before_of_ge (by omega), List.append_nil]
      · obtain ⟨r, rfl⟩ := Nat.exists_eq_add_of_le hge
        rw [before_of_le (by omega), ← Nat.add_assoc, ih (by omega), mountainsFrom_add (by omega)]
        rfl

/-- The maximal nodes of a range before a leaf are the trees of the range of the leaves before it. -/
theorem flatMap_before {start f l : ℕ} (hl : l ≤ f) :
    (mountainsFrom start f).flatMap (fun p => before (start + l) p.1 p.2) = mountainsFrom start l := by
  induction start, f using mountainInduction generalizing l with
  | zero start =>
      obtain rfl : l = 0 := by omega
      rw [mountainsFrom_zero]
      rfl
  | step start h r hr ih =>
      rw [mountainsFrom_add hr, List.flatMap_cons]
      dsimp only
      rcases Nat.lt_or_ge l (2 ^ h) with hlt | hge
      · have hrest : (mountainsFrom (start + 2 ^ h) r).flatMap
            (fun p => before (start + l) p.1 p.2) = [] := by
          rw [List.flatMap_eq_nil_iff]
          intro p hp
          have hstart := le_of_mem_mountainsFrom hp
          exact before_of_ge (by omega)
        rw [hrest, List.append_nil, before_eq_mountainsFrom hlt]
      · obtain ⟨l, rfl⟩ := Nat.exists_eq_add_of_le hge
        rw [before_of_le (by omega), ← Nat.add_assoc, ih (by omega), mountainsFrom_add (by omega)]
        rfl

/-! ## The way up -/

/-- The way from the node of height `h` over the leaves from `s` on up to the root of a tree: for each
step, whether the node below is a right child, and where its parent lies. -/
def path (h s : ℕ) : ℕ → ℕ → List (Bool × ℕ)
  | 0, _ => []
  | H + 1, S =>
    if H < h then []
    else if s < S + 2 ^ H then path h s H S ++ [(false, pos (H + 1) S)]
    else path h s H (S + 2 ^ H) ++ [(true, pos (H + 1) S)]

theorem path_self (h s : ℕ) : path h s h s = [] := by
  cases h with
  | zero => rfl
  | succ h => rw [path, if_pos (Nat.lt_succ_self h)]

theorem Below.path_left {H S h s : ℕ} (hb : Below H S h s) (hS : 2 ^ H ∣ S) :
    path h s (H + 1) S = path h s H S ++ [(false, pos (H + 1) S)] := by
  obtain ⟨h1, -, -, h4⟩ := hb.leaves hS
  have := Nat.two_pow_pos h
  rw [path, if_neg (by omega), if_pos (by omega)]

theorem Below.path_right {H S h s : ℕ} (hb : Below H (S + 2 ^ H) h s) (hS : 2 ^ H ∣ S + 2 ^ H) :
    path h s (H + 1) S = path h s H (S + 2 ^ H) ++ [(true, pos (H + 1) S)] := by
  obtain ⟨h1, -, h3, -⟩ := hb.leaves hS
  rw [path, if_neg (by omega), if_neg (by omega)]

/-- The parents on the way up lie no further than the root. -/
theorem Below.path_le {H S h s : ℕ} (hb : Below H S h s) (hS : 2 ^ H ∣ S) {x : Bool × ℕ}
    (hx : x ∈ path h s H S) : x.2 ≤ pos H S := by
  induction hb with
  | root H S =>
      rw [path_self] at hx
      cases hx
  | @left H S h s hb ih =>
      rw [hb.path_left (dvd_left hS), List.mem_append, List.mem_singleton] at hx
      rcases hx with hx | rfl
      · have := ih (dvd_left hS) hx
        rw [pos_left]
        omega
      · exact le_rfl
  | @right H S h s hb ih =>
      rw [hb.path_right (dvd_right hS), List.mem_append, List.mem_singleton] at hx
      rcases hx with hx | rfl
      · have := ih (dvd_right hS) hx
        rw [pos_right hS]
        omega
      · exact le_rfl

/-! ## Values -/

section Values

variable {α β : Type} (leaf : α → β) (interior : ℕ → β → β → β) (log : ℕ → α)

/-- The value of a node over a log: the position goes into the value of an inner node. -/
def node : ℕ → ℕ → β
  | 0, s => leaf (log s)
  | h + 1, s => interior (pos (h + 1) s) (node h s) (node h (s + 2 ^ h))

/-- The siblings on the way up. -/
def siblings (h s : ℕ) : ℕ → ℕ → List β
  | 0, _ => []
  | H + 1, S =>
    if H < h then []
    else if s < S + 2 ^ H then siblings h s H S ++ [node leaf interior log H (S + 2 ^ H)]
    else siblings h s H (S + 2 ^ H) ++ [node leaf interior log H S]

/-- One step up. -/
def up (acc : β) (step : (Bool × ℕ) × β) : β :=
  if step.1.1 then interior step.1.2 step.2 acc else interior step.1.2 acc step.2

theorem length_siblings (h s H S : ℕ) :
    (siblings leaf interior log h s H S).length = (path h s H S).length := by
  induction H generalizing S with
  | zero => rfl
  | succ H ih =>
      unfold siblings path
      split_ifs
      · rfl
      · rw [List.length_append, List.length_append, ih]
        rfl
      · rw [List.length_append, List.length_append, ih]
        rfl

theorem siblings_self (h s : ℕ) : siblings leaf interior log h s h s = [] := by
  cases h with
  | zero => rfl
  | succ h => rw [siblings, if_pos (Nat.lt_succ_self h)]

theorem Below.siblings_left {H S h s : ℕ} (hb : Below H S h s) (hS : 2 ^ H ∣ S) :
    siblings leaf interior log h s (H + 1) S =
      siblings leaf interior log h s H S ++ [node leaf interior log H (S + 2 ^ H)] := by
  obtain ⟨h1, -, -, h4⟩ := hb.leaves hS
  have := Nat.two_pow_pos h
  rw [siblings, if_neg (by omega), if_pos (by omega)]

theorem Below.siblings_right {H S h s : ℕ} (hb : Below H (S + 2 ^ H) h s) (hS : 2 ^ H ∣ S + 2 ^ H) :
    siblings leaf interior log h s (H + 1) S =
      siblings leaf interior log h s H (S + 2 ^ H) ++ [node leaf interior log H S] := by
  obtain ⟨h1, -, h3, -⟩ := hb.leaves hS
  rw [siblings, if_neg (by omega), if_neg (by omega)]

/-- The value of a node looks at the leaves it covers. -/
theorem node_congr {log' : ℕ → α} {h s : ℕ} (hlog : ∀ i, s ≤ i → i < s + 2 ^ h → log i = log' i) :
    node leaf interior log h s = node leaf interior log' h s := by
  induction h generalizing s with
  | zero =>
      have hs := hlog s le_rfl (by simp)
      exact congrArg leaf hs
  | succ h ih =>
      have hpow : 2 ^ (h + 1) = 2 * 2 ^ h := pow_succ' 2 h
      have hl := ih fun i h1 h2 => hlog i h1 (by omega)
      have hr := @ih (s + 2 ^ h) fun i h1 h2 => hlog i (by omega) (by omega)
      rw [node, node, hl, hr]

/-- The siblings of a node lead from its value to the value of the root. -/
theorem Below.foldl_up {H S h s : ℕ} (hb : Below H S h s) (hS : 2 ^ H ∣ S) :
    ((path h s H S).zip (siblings leaf interior log h s H S)).foldl (up interior)
      (node leaf interior log h s) = node leaf interior log H S := by
  induction hb with
  | root H S =>
      rw [path_self]
      rfl
  | @left H S h s hb ih =>
      rw [hb.path_left (dvd_left hS), hb.siblings_left leaf interior log (dvd_left hS),
        List.zip_append (length_siblings leaf interior log h s H S).symm, List.foldl_append,
        ih (dvd_left hS)]
      rfl
  | @right H S h s hb ih =>
      rw [hb.path_right (dvd_right hS), hb.siblings_right leaf interior log (dvd_right hS),
        List.zip_append (length_siblings leaf interior log h s H _).symm, List.foldl_append,
        ih (dvd_right hS)]
      rfl

end Values

end Mmr
