import ScittCose.Lib.Mmr

/-!
# A Merkle mountain range as it grows

Leaves are appended one at a time, each followed by the parents it completes. `grown` carries the nodes in
the order they were appended, a parent with the places of its children, and the tops of the mountains.

After `f` leaves the tops are the trees of `mountains f` and the nodes are those of `pos`: the node of
height `h` over the leaves from `s` on is the one appended at `pos h s` (`getElem?_nodes_iff`).
-/

namespace Mmr

/-- A node as it is appended: its height and, of a parent, the places of its children. -/
structure Node where
  height : ℕ
  children : Option (ℕ × ℕ)
deriving DecidableEq

/-- The nodes so far, and the mountain tops, the last one first: height and place. -/
structure Growth where
  nodes : List Node
  tops : List (ℕ × ℕ)
deriving DecidableEq

/-- Append a node to the right of the mountains with these tops, and the parents it completes: two tops of one
height get a parent. -/
def push (nodes : List Node) (node : Node) : List (ℕ × ℕ) → Growth
  | [] => ⟨nodes ++ [node], [(node.height, nodes.length)]⟩
  | (h, p) :: tops =>
    if h = node.height then push (nodes ++ [node]) ⟨h + 1, some (p, nodes.length)⟩ tops
    else ⟨nodes ++ [node], (node.height, nodes.length) :: (h, p) :: tops⟩

/-- The range after `f` leaves. -/
def grown : ℕ → Growth
  | 0 => ⟨[], []⟩
  | f + 1 => push (grown f).nodes ⟨0, none⟩ (grown f).tops

/-- The tops of a range from left to right. -/
def Growth.mountainTops (g : Growth) : List (ℕ × ℕ) := g.tops.reverse

/-- From a node down to a node below it. -/
inductive Growth.Under (g : Growth) : ℕ → ℕ → Prop
  | self {p : ℕ} (hp : p < g.nodes.length) : Under g p p
  | left {p t h l r : ℕ} (hp : g.nodes[p]? = some ⟨h, some (l, r)⟩) (ht : Under g l t) : Under g p t
  | right {p t h l r : ℕ} (hp : g.nodes[p]? = some ⟨h, some (l, r)⟩) (ht : Under g r t) : Under g p t

/-- The range of three leaves: two of them under a parent, and the third. -/
example : grown 3 = ⟨[⟨0, none⟩, ⟨0, none⟩, ⟨1, some (0, 1)⟩, ⟨0, none⟩], [(0, 3), (1, 2)]⟩ := by decide

/-- The node of height `h` over the leaves from `s` on. -/
def nodeAt : ℕ → ℕ → Node
  | 0, _ => ⟨0, none⟩
  | h + 1, s => ⟨h + 1, some (pos h s, pos h (s + 2 ^ h))⟩

@[simp] theorem height_nodeAt (h s : ℕ) : (nodeAt h s).height = h := by
  cases h <;> rfl

/-! ## What has been appended -/

/-- The nodes are those of a set of heights and first leaves, each at its place. -/
def Holds (nodes : List Node) (covered : ℕ → ℕ → Prop) : Prop :=
  ∀ p node, nodes[p]? = some node ↔
    ∃ h s, 2 ^ h ∣ s ∧ covered h s ∧ p = pos h s ∧ node = nodeAt h s

/-- The nodes before the one of height `h` over the leaves from `s` on: those that end earlier, and the lower
ones that end with it. -/
def Before (h s k u : ℕ) : Prop := u + 2 ^ k < s + 2 ^ h ∨ u + 2 ^ k = s + 2 ^ h ∧ k < h

/-- The tops of the trees over `s` leaves, the last one first. -/
def topsOf (s : ℕ) : List (ℕ × ℕ) := (mountains s).reverse.map fun p => (p.1, pos p.1 p.2)

/-- The range of `f` leaves. -/
structure Complete (g : Growth) (f : ℕ) : Prop where
  length_eq : g.nodes.length = nodeCount f
  holds : Holds g.nodes fun h s => s + 2 ^ h ≤ f
  tops_eq : g.tops = topsOf f

theorem topsOf_zero : topsOf 0 = [] := by
  rw [topsOf, mountains, mountainsFrom_zero]
  rfl

theorem topsOf_add_pow {s h : ℕ} (hs : 2 ^ (h + 1) ∣ s) :
    topsOf (s + 2 ^ h) = (h, pos h s) :: topsOf s := by
  rw [topsOf, mountains_add_pow hs, List.reverse_append]
  rfl

theorem Holds.congr {nodes : List Node} {covered covered' : ℕ → ℕ → Prop} (hn : Holds nodes covered)
    (hiff : ∀ h s, 2 ^ h ∣ s → (covered h s ↔ covered' h s)) : Holds nodes covered' := by
  intro p node
  rw [hn p node]
  refine exists_congr fun h => exists_congr fun s => ?_
  exact and_congr_right fun hs => and_congr_left fun _ => hiff h s hs

/-- One more node, at its place. -/
theorem Holds.snoc {nodes : List Node} {covered : ℕ → ℕ → Prop} {h s : ℕ} (hn : Holds nodes covered)
    (hlen : nodes.length = pos h s) (hs : 2 ^ h ∣ s) :
    Holds (nodes ++ [nodeAt h s]) fun k u => covered k u ∨ k = h ∧ u = s := by
  intro p node
  constructor
  · intro hp
    rcases Nat.lt_or_ge p nodes.length with hlt | hge
    · rw [List.getElem?_append_left hlt] at hp
      obtain ⟨k, u, hu, hcovered, hpos, hnode⟩ := (hn p node).mp hp
      exact ⟨k, u, hu, .inl hcovered, hpos, hnode⟩
    · rw [List.getElem?_append_right hge, List.getElem?_singleton] at hp
      split_ifs at hp with hp0
      exact ⟨h, s, hs, .inr ⟨rfl, rfl⟩, by omega, (Option.some.inj hp).symm⟩
  · rintro ⟨k, u, hu, hcovered | ⟨rfl, rfl⟩, rfl, rfl⟩
    · have hp := (hn (pos k u) (nodeAt k u)).mpr ⟨k, u, hu, hcovered, rfl, rfl⟩
      have hlt : pos k u < nodes.length := (List.getElem?_eq_some_iff.mp hp).1
      rw [List.getElem?_append_left hlt]
      exact hp
    · rw [← hlen, List.getElem?_concat_length]

/-- The last tree of a range is no lower than a power that divides the range. -/
theorem le_height_of_dvd {s h k : ℕ} (hs : 2 ^ (k + 1) ∣ s) (hdvd : 2 ^ h ∣ s + 2 ^ k) : h ≤ k := by
  by_contra hlt
  have h1 : 2 ^ (k + 1) ∣ s + 2 ^ k := (Nat.pow_dvd_pow 2 (by omega)).trans hdvd
  have h2 : 2 ^ (k + 1) ∣ 2 ^ k := (Nat.dvd_add_right hs).mp h1
  have := Nat.le_of_dvd (Nat.two_pow_pos k) h2
  rw [pow_succ] at this
  have := Nat.two_pow_pos k
  omega

/-- A node after which no parent follows completes the range. -/
theorem complete_snoc {nodes : List Node} {h s : ℕ} (hn : Holds nodes (Before h s))
    (hlen : nodes.length = pos h s) (hs : 2 ^ (h + 1) ∣ s) :
    Complete ⟨nodes ++ [nodeAt h s], (h, nodes.length) :: topsOf s⟩ (s + 2 ^ h) := by
  constructor
  · have hpow : 2 ^ (h + 1) = 2 * 2 ^ h := pow_succ' 2 h
    have := Nat.two_pow_pos h
    rw [nodeCount_add_pow hs, List.length_append, hlen, pos, List.length_singleton]
    omega
  · refine (hn.snoc hlen (dvd_left hs)).congr fun k u hu => ?_
    constructor
    · rintro ((hlt | ⟨heq, -⟩) | ⟨rfl, rfl⟩)
      · exact hlt.le
      · exact heq.le
      · exact le_rfl
    · intro hle
      rcases Nat.lt_or_eq_of_le hle with hlt | heq
      · exact .inl (.inl hlt)
      · -- a node that ends with this one is no higher, as the range is no multiple of more leaves
        have hk : k ≤ h := le_height_of_dvd hs (heq ▸ Nat.dvd_add hu (dvd_refl _))
        rcases Nat.lt_or_eq_of_le hk with hlt | rfl
        · exact .inl (.inr ⟨heq, hlt⟩)
        · exact .inr ⟨rfl, Nat.add_right_cancel heq⟩
  · rw [topsOf_add_pow hs, hlen]

/-- A node and its left sibling get their parent next. -/
theorem Holds.snoc_right {nodes : List Node} {h s : ℕ} (hn : Holds nodes (Before h (s + 2 ^ h)))
    (hlen : nodes.length = pos h (s + 2 ^ h)) (hs : 2 ^ (h + 1) ∣ s) :
    Holds (nodes ++ [nodeAt h (s + 2 ^ h)]) (Before (h + 1) s) := by
  have hpow : 2 ^ (h + 1) = 2 * 2 ^ h := pow_succ' 2 h
  refine (hn.snoc hlen (dvd_right hs)).congr fun k u _ => ?_
  unfold Before
  constructor
  · rintro ((hlt | ⟨heq, hk⟩) | ⟨rfl, rfl⟩)
    · exact .inl (by omega)
    · exact .inr ⟨by omega, by omega⟩
    · exact .inr ⟨by omega, by omega⟩
  · rintro (hlt | ⟨heq, hk⟩)
    · exact .inl (.inl (by omega))
    · rcases Nat.lt_or_eq_of_le (Nat.le_of_lt_succ hk) with hlt | rfl
      · exact .inl (.inr ⟨by omega, hlt⟩)
      · exact .inr ⟨rfl, by omega⟩

/-- Appending a node and the parents it completes. -/
theorem complete_push {nodes : List Node} {h s : ℕ} (hn : Holds nodes (Before h s))
    (hlen : nodes.length = pos h s) (hs : 2 ^ h ∣ s) :
    Complete (push nodes (nodeAt h s) (topsOf s)) (s + 2 ^ h) := by
  induction s using Nat.strong_induction_on generalizing nodes h with
  | _ s ih =>
      rcases Nat.eq_zero_or_pos s with rfl | hpos
      · have hdone := complete_snoc hn hlen (dvd_zero _)
        rw [topsOf_zero] at hdone ⊢
        rwa [push, height_nodeAt]
      · obtain ⟨k, t, ht, rfl⟩ := exists_last (Nat.pos_iff_ne_zero.mp hpos)
        have hk : h ≤ k := le_height_of_dvd ht hs
        rw [topsOf_add_pow ht, push, height_nodeAt]
        split_ifs with heq
        · -- the last tree is as high: the next node is the parent of the two
          obtain rfl := heq
          have hpow : 2 ^ (k + 1) = 2 * 2 ^ k := pow_succ' 2 k
          have htk := Nat.two_pow_pos k
          have hparent : (⟨k + 1, some (pos k t, nodes.length)⟩ : Node) = nodeAt (k + 1) t := by
            rw [hlen]
            rfl
          have hlen' : (nodes ++ [nodeAt k (t + 2 ^ k)]).length = pos (k + 1) t := by
            rw [List.length_append, hlen, pos_right ht]
            rfl
          have hsum : t + 2 ^ k + 2 ^ k = t + 2 ^ (k + 1) := by omega
          rw [hparent, hsum]
          exact ih t (by omega) (hn.snoc_right hlen ht) hlen' ht
        · have hdvd : 2 ^ (h + 1) ∣ t + 2 ^ k :=
            (Nat.pow_dvd_pow 2 (by omega)).trans (dvd_right ht)
          rw [← topsOf_add_pow ht]
          exact complete_snoc hn hlen hdvd

theorem complete_grown (f : ℕ) : Complete (grown f) f := by
  induction f with
  | zero =>
      refine ⟨nodeCount_zero.symm, fun p node => iff_of_false (by simp [grown]) ?_, topsOf_zero.symm⟩
      rintro ⟨h, s, -, hle, -⟩
      have := Nat.two_pow_pos h
      omega
  | succ f ih =>
      rw [grown, ih.tops_eq]
      refine @complete_push _ 0 f (ih.holds.congr fun h s _ => ?_) ?_ (one_dvd f)
      · unfold Before
        have := Nat.two_pow_pos h
        omega
      · rw [ih.length_eq, pos_zero]

/-! ## The nodes and tops of a range -/

@[simp] theorem length_nodes (f : ℕ) : (grown f).nodes.length = nodeCount f := (complete_grown f).length_eq

/-- The node appended at a place. -/
theorem getElem?_nodes_iff {f p : ℕ} {node : Node} :
    (grown f).nodes[p]? = some node ↔
      ∃ h s, 2 ^ h ∣ s ∧ s + 2 ^ h ≤ f ∧ p = pos h s ∧ node = nodeAt h s :=
  (complete_grown f).holds p node

theorem getElem?_nodes {f h s : ℕ} (hs : 2 ^ h ∣ s) (hle : s + 2 ^ h ≤ f) :
    (grown f).nodes[pos h s]? = some (nodeAt h s) :=
  getElem?_nodes_iff.mpr ⟨h, s, hs, hle, rfl, rfl⟩

theorem mountainTops_grown (f : ℕ) :
    (grown f).mountainTops = (mountains f).map fun p => (p.1, pos p.1 p.2) := by
  rw [Growth.mountainTops, (complete_grown f).tops_eq, topsOf, List.map_reverse, List.reverse_reverse]

theorem pow_le_of_mem_mountainsFrom {start f : ℕ} {p : ℕ × ℕ} (hp : p ∈ mountainsFrom start f) :
    2 ^ p.1 ≤ f := by
  induction start, f using mountainInduction with
  | zero start =>
      rw [mountainsFrom_zero] at hp
      cases hp
  | step start h r hr ih =>
      rw [mountainsFrom_add hr] at hp
      rcases List.mem_cons.mp hp with rfl | hp
      · exact Nat.le_add_right _ _
      · exact (ih hp).trans (Nat.le_add_left _ _)

/-- The trees get lower from left to right. -/
theorem pairwise_mountainsFrom (start f : ℕ) :
    (mountainsFrom start f).Pairwise fun p q => q.1 < p.1 := by
  induction start, f using mountainInduction with
  | zero start =>
      rw [mountainsFrom_zero]
      exact List.Pairwise.nil
  | step start h r hr ih =>
      rw [mountainsFrom_add hr, List.pairwise_cons]
      refine ⟨fun q hq => ?_, ih⟩
      have hle := pow_le_of_mem_mountainsFrom hq
      exact (Nat.pow_lt_pow_iff_right one_lt_two).mp (hle.trans_lt hr)

theorem pairwise_mountainTops (f : ℕ) :
    (grown f).mountainTops.Pairwise fun top next => next.1 < top.1 := by
  rw [mountainTops_grown, List.pairwise_map]
  exact pairwise_mountainsFrom 0 f

/-- Every place is that of a node of a range large enough. -/
theorem lt_length_nodes (p : ℕ) : p < (grown (p + 1)).nodes.length := by
  rw [length_nodes]
  exact nodeCount_strictMono.le_apply

/-- Later leaves leave the nodes before them as they are. -/
theorem nodes_prefix_push (nodes : List Node) (node : Node) (tops : List (ℕ × ℕ)) :
    nodes <+: (push nodes node tops).nodes := by
  induction tops generalizing nodes node with
  | nil => exact List.prefix_append _ _
  | cons top tops ih =>
      rw [push]
      split_ifs
      · exact (List.prefix_append _ _).trans (ih _ _)
      · exact List.prefix_append _ _

theorem nodes_prefix_grown {i f : ℕ} (hle : i ≤ f) : (grown i).nodes <+: (grown f).nodes := by
  induction hle with
  | refl => exact List.prefix_refl _
  | step _ ih => exact ih.trans (nodes_prefix_push _ _ _)

/-- How many of the nodes are leaves. -/
def countLeaves (nodes : List Node) : ℕ := nodes.countP fun node => node.height = 0

/-- The parents a node completes are no leaves. -/
theorem countLeaves_push (nodes : List Node) (node : Node) (tops : List (ℕ × ℕ)) :
    countLeaves (push nodes node tops).nodes = countLeaves nodes + countLeaves [node] := by
  induction tops generalizing nodes node with
  | nil => exact List.countP_append
  | cons top tops ih =>
      rw [push]
      split_ifs
      · rw [ih]
        exact congrArg (· + 0) List.countP_append
      · exact List.countP_append

theorem countLeaves_grown (f : ℕ) : countLeaves (grown f).nodes = f := by
  induction f with
  | zero => rfl
  | succ f ih =>
      rw [grown, countLeaves_push, ih]
      rfl

/-- The leaf that `i` leaves precede. -/
theorem countLeaves_take {i f : ℕ} (hle : i ≤ f) :
    countLeaves ((grown f).nodes.take (pos 0 i)) = i := by
  rw [pos_zero, ← length_nodes i, ← List.prefix_iff_eq_take.mp (nodes_prefix_grown hle), countLeaves_grown]

/-- What is under a node are the nodes of its tree. -/
theorem Growth.Under.exists_below {f p t : ℕ} (hu : (grown f).Under p t) :
    ∀ {H S : ℕ}, p = pos H S → 2 ^ H ∣ S → S + 2 ^ H ≤ f → ∃ h s, Below H S h s ∧ t = pos h s := by
  have hchildren : ∀ {p h l r H S : ℕ}, (grown f).nodes[p]? = some ⟨h, some (l, r)⟩ → p = pos H S →
      2 ^ H ∣ S → S + 2 ^ H ≤ f → ∃ K, H = K + 1 ∧ l = pos K S ∧ r = pos K (S + 2 ^ K) := by
    intro p h l r H S hp hpos hS hle
    rw [hpos, getElem?_nodes hS hle, Option.some.injEq] at hp
    cases H with
    | zero => cases hp
    | succ K =>
        rw [nodeAt, Node.mk.injEq, Option.some.injEq, Prod.mk.injEq] at hp
        exact ⟨K, rfl, hp.2.1.symm, hp.2.2.symm⟩
  induction hu with
  | self hp => exact fun {H S} hpos hS hle => ⟨H, S, .root H S, hpos⟩
  | left hp _ ih =>
      intro H S hpos hS hle
      obtain ⟨K, rfl, hl, -⟩ := hchildren hp hpos hS hle
      have hpow : 2 ^ (K + 1) = 2 * 2 ^ K := pow_succ' 2 K
      obtain ⟨h, s, hb, ht⟩ := ih hl (dvd_left hS) (by omega)
      exact ⟨h, s, hb.left, ht⟩
  | right hp _ ih =>
      intro H S hpos hS hle
      obtain ⟨K, rfl, -, hr⟩ := hchildren hp hpos hS hle
      have hpow : 2 ^ (K + 1) = 2 * 2 ^ K := pow_succ' 2 K
      obtain ⟨h, s, hb, ht⟩ := ih hr (dvd_right hS) (by omega)
      exact ⟨h, s, hb.right, ht⟩

end Mmr
