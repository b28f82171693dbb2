import Mathlib.Algebra.Order.Ring.Nat
import Mathlib.Tactic.Common

/-!
# Network addresses

The builtins on networks. Their arguments are what `netaddr` makes of texts: an address is a number of 32
or 128 bits, and a network has all addresses that begin as one of its addresses does.
-/

namespace Congress

/-- A family of addresses. -/
inductive IPVersion
  | v4
  | v6
  deriving DecidableEq

/-- The number of bits of an address. -/
def IPVersion.width : IPVersion → ℕ
  | v4 => 32
  | v6 => 128

structure IPAddress where
  version : IPVersion
  value : ℕ
  valid : value < 2 ^ version.width
  deriving DecidableEq

/-- An address of a network, and how many bits all its addresses begin with. -/
structure IPNetwork where
  version : IPVersion
  value : ℕ
  prefixlen : ℕ
  valid : value < 2 ^ version.width
  prefixlen_le : prefixlen ≤ version.width
  deriving DecidableEq

namespace IPNetwork

/-- The number of addresses. -/
def size (n : IPNetwork) : ℕ := 2 ^ (n.version.width - n.prefixlen)

def first (n : IPNetwork) : ℕ := n.value - n.value % n.size

def last (n : IPNetwork) : ℕ := n.first + (n.size - 1)

/-- `in`. -/
def contains (n : IPNetwork) (a : IPAddress) : Bool :=
  a.version = n.version && n.first ≤ a.value && a.value ≤ n.last

end IPNetwork

def networksOverlap (cidr₁ cidr₂ : IPNetwork) : Bool :=
  (cidr₁.first ≤ cidr₂.first && cidr₂.first ≤ cidr₁.last)
    || (cidr₁.first ≤ cidr₂.last && cidr₂.last ≤ cidr₁.last)

def ipInNetwork (ip : IPAddress) (cidr : IPNetwork) : Bool := cidr.contains ip

/-! ## What overlaps -/

namespace IPNetwork

variable {n m : IPNetwork} {a : IPAddress}

theorem size_pos (n : IPNetwork) : 0 < n.size := Nat.two_pow_pos _

theorem first_le_last (n : IPNetwork) : n.first ≤ n.last := Nat.le_add_right _ _

/-- All addresses of a network are addresses. -/
theorem last_lt (n : IPNetwork) : n.last < 2 ^ n.version.width := by
  have hsize : n.size * 2 ^ n.prefixlen = 2 ^ n.version.width := by
    rw [size, ← pow_add, Nat.sub_add_cancel n.prefixlen_le]
  have hdiv : n.value / n.size < 2 ^ n.prefixlen := Nat.div_lt_of_lt_mul (hsize ▸ n.valid)
  have hfirst : n.first = n.size * (n.value / n.size) := by
    have := Nat.div_add_mod n.value n.size
    unfold first
    omega
  have hnext : n.size * (n.value / n.size + 1) ≤ n.size * 2 ^ n.prefixlen := Nat.mul_le_mul_left _ hdiv
  have hpos := n.size_pos
  rw [Nat.mul_add, hsize] at hnext
  unfold last
  omega

theorem ipInNetwork_iff : ipInNetwork a n = true ↔ a.version = n.version ∧ n.first ≤ a.value ∧ a.value ≤ n.last := by
  simp [ipInNetwork, contains, and_assoc]

/-- Two networks have an address in common if neither ends before the other begins. -/
theorem exists_common_iff (h : n.version = m.version) :
    (∃ a, ipInNetwork a n = true ∧ ipInNetwork a m = true) ↔ n.first ≤ m.last ∧ m.first ≤ n.last := by
  simp only [ipInNetwork_iff]
  constructor
  · rintro ⟨a, ⟨-, hn, hn'⟩, -, hm, hm'⟩
    exact ⟨hn.trans hm', hm.trans hn'⟩
  · rintro ⟨hnm, hmn⟩
    have hn := n.first_le_last
    have hm := m.first_le_last
    exact ⟨⟨n.version, max n.first m.first, (max_le hn hmn).trans_lt n.last_lt⟩,
      ⟨rfl, le_max_left _ _, max_le hn hmn⟩, h, le_max_right _ _, max_le hnm hm⟩

end IPNetwork

/-- `networks_overlap` tells whether two networks of one family have an address in common, unless the first
one lies inside the second one and has neither its first nor its last address. -/
theorem networksOverlap_iff (n m : IPNetwork) (h : n.version = m.version) :
    (networksOverlap n m = true ↔ ∃ a, ipInNetwork a n = true ∧ ipInNetwork a m = true)
      ↔ ¬(m.first < n.first ∧ n.last < m.last) := by
  have hn := n.first_le_last
  have hm := m.first_le_last
  rw [IPNetwork.exists_common_iff h, networksOverlap]
  simp only [Bool.or_eq_true, Bool.and_eq_true, decide_eq_true_eq]
  omega

/-- `10.0.0.0/8` and `10.1.0.0/16`. -/
theorem networksOverlap_iff_nested :
    let n : IPNetwork := ⟨.v4, 167772160, 8, by decide, by decide⟩
    let m : IPNetwork := ⟨.v4, 167837696, 16, by decide, by decide⟩
    networksOverlap n m = true ↔ ∃ a, ipInNetwork a n = true ∧ ipInNetwork a m = true :=
  (networksOverlap_iff ⟨.v4, 167772160, 8, by decide, by decide⟩ ⟨.v4, 167837696, 16, by decide, by decide⟩ rfl).2
    (by decide)

/-- `10.1.0.0/16` and `10.0.0.0/8`, which has it. -/
theorem not_networksOverlap :
    let n : IPNetwork := ⟨.v4, 167837696, 16, by decide, by decide⟩
    let m : IPNetwork := ⟨.v4, 167772160, 8, by decide, by decide⟩
    networksOverlap n m = false ∧ ∃ a, ipInNetwork a n = true ∧ ipInNetwork a m = true :=
  ⟨by decide, ⟨.v4, 167837697, by decide⟩, by decide, by decide⟩

end Congress
