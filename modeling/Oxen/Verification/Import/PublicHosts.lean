import Oxen.Lib.AddressBlocks
import Oxen.Model.UrlImport

/-! Which answers of the name service keep an import away from private hosts. -/

namespace Oxen

namespace UrlImport

open AddressBlocks

/-! ## Excluded addresses -/

namespace Ipv4Addr

def toNat (v4 : Ipv4Addr) : ℕ :=
  ((v4.o0.toNat * 256 + v4.o1.toNat) * 256 + v4.o2.toNat) * 256 + v4.o3.toNat

def block (o0 o1 o2 o3 : UInt8) (len : ℕ) : Block 32 :=
  ⟨toNat ⟨o0, o1, o2, o3⟩, len⟩

/-- The blocks that the code looks for. -/
def coveredBlocks : List (Block 32) :=
  [ block 127 0 0 0 8,
    block 10 0 0 0 8, block 172 16 0 0 12, block 192 168 0 0 16,
    block 169 254 0 0 16,
    block 0 0 0 0 32,
    block 255 255 255 255 32,
    block 100 64 0 0 10, block 192 0 0 0 24, block 198 18 0 0 15 ]

/-- Those that it does not look for: the rest of this network and of the reserved addresses, and
three for documentation. -/
def missedBlocks : List (Block 32) :=
  [ block 0 0 0 0 8,
    block 192 0 2 0 24, block 198 51 100 0 24, block 203 0 113 0 24,
    block 240 0 0 0 4 ]

/-- Loopback, private, link-local, unspecified, shared and reserved addresses. -/
def Excluded (v4 : Ipv4Addr) : Prop :=
  InBlocks (coveredBlocks ++ missedBlocks) v4.toNat

instance : DecidablePred Excluded :=
  fun v4 => inferInstanceAs (Decidable (InBlocks _ v4.toNat))

/-- An excluded address that the code lets pass. -/
def InGap (v4 : Ipv4Addr) : Prop :=
  InBlocks missedBlocks v4.toNat ∧ v4 ≠ unspecified ∧ v4 ≠ broadcast

instance : DecidablePred InGap :=
  fun v4 => inferInstanceAs (Decidable (InBlocks _ v4.toNat ∧ _))

theorem and_c0_iff (o : UInt8) : o &&& 0xC0 = 64 ↔ o.toNat / 64 = 1 := by
  rw [← UInt8.toNat_inj, UInt8.toNat_and]
  exact and_mask_eq_iff (n := 2) (k := 6) (y := 1) o.toNat_lt

theorem and_fe_iff (o : UInt8) : o &&& 0xFE = 18 ↔ o.toNat / 2 = 9 := by
  rw [← UInt8.toNat_inj, UInt8.toNat_and]
  exact and_mask_eq_iff (n := 7) (k := 1) (y := 9) o.toNat_lt

/-- Up to sixteen bits are those of the first two octets. -/
theorem contains_block_iff (v4 : Ipv4Addr) (a b c d : UInt8) {len : ℕ} (hlen : len ≤ 16) :
    (block a b c d len).Contains v4.toNat ↔
      (v4.o0.toNat * 256 + v4.o1.toNat) / 2 ^ (16 - len) =
        (a.toNat * 256 + b.toNat) / 2 ^ (16 - len) := by
  have hdiv (v : Ipv4Addr) :
      v.toNat / 2 ^ (32 - len) = (v.o0.toNat * 256 + v.o1.toNat) / 2 ^ (16 - len) := by
    have h2 := v.o2.toNat_lt
    have h3 := v.o3.toNat_lt
    rw [show 32 - len = 16 + (16 - len) by omega, pow_add, ← Nat.div_div_eq_div_mul]
    congr 1
    rw [toNat]
    omega
  rw [Block.Contains, block, hdiv, hdiv]

theorem contains_block_24_iff (v4 : Ipv4Addr) (a b c d : UInt8) :
    (block a b c d 24).Contains v4.toNat ↔ v4.o0 = a ∧ v4.o1 = b ∧ v4.o2 = c := by
  have ha := a.toNat_lt
  have hb := b.toNat_lt
  have hc := c.toNat_lt
  have hd := d.toNat_lt
  have h0 := v4.o0.toNat_lt
  have h1 := v4.o1.toNat_lt
  have h2 := v4.o2.toNat_lt
  have h3 := v4.o3.toNat_lt
  simp only [Block.Contains, block, toNat, ← UInt8.toNat_inj]
  omega

theorem contains_block_32_iff (v4 : Ipv4Addr) (a b c d : UInt8) :
    (block a b c d 32).Contains v4.toNat ↔
      v4.o0 = a ∧ v4.o1 = b ∧ v4.o2 = c ∧ v4.o3 = d := by
  have ha := a.toNat_lt
  have hb := b.toNat_lt
  have hc := c.toNat_lt
  have hd := d.toNat_lt
  have h0 := v4.o0.toNat_lt
  have h1 := v4.o1.toNat_lt
  have h2 := v4.o2.toNat_lt
  have h3 := v4.o3.toNat_lt
  simp only [Block.Contains, block, toNat, ← UInt8.toNat_inj]
  omega

/-- The code looks for the blocks that it is said to cover, and for no other address. -/
theorem isPrivateIp_iff (v4 : Ipv4Addr) :
    v4.isPrivateIp = true ↔ InBlocks coveredBlocks v4.toNat := by
  rcases v4 with ⟨o0, o1, o2, o3⟩
  have h0 := o0.toNat_lt
  have h1 := o1.toNat_lt
  simp only [coveredBlocks, inBlocks_cons, inBlocks_nil, or_false, contains_block_24_iff,
    contains_block_32_iff, contains_block_iff, Nat.reduceLeDiff, Nat.reduceSub]
  simp only [isPrivateIp, isLoopback, isPrivate, isLinkLocal, isCgnOrReservedV4,
    Bool.or_eq_true, decide_eq_true_eq, and_c0_iff, and_fe_iff]
  simp only [unspecified, broadcast, mk.injEq, ← UInt8.toNat_inj, UInt8.le_iff_toNat_le,
    UInt8.reduceToNat, or_assoc]
  repeat' apply or_congr
  all_goals omega

theorem excluded_of_inGap {v4 : Ipv4Addr} (h : v4.InGap) : v4.Excluded :=
  (inBlocks_append _ _ _).mpr (.inr h.1)

/-- What the code refuses is excluded. -/
theorem excluded_of_isPrivateIp {v4 : Ipv4Addr} (h : v4.isPrivateIp = true) : v4.Excluded :=
  (inBlocks_append _ _ _).mpr (.inl ((isPrivateIp_iff v4).mp h))

/-- An excluded address passes exactly if it is in the gap. -/
theorem isPrivateIp_eq_false_iff {v4 : Ipv4Addr} (h : v4.Excluded) :
    v4.isPrivateIp = false ↔ v4.InGap := by
  rw [← Bool.not_eq_true, isPrivateIp_iff, InGap]
  rw [Excluded, inBlocks_append] at h
  constructor
  · intro hcovered
    refine ⟨h.resolve_left hcovered, ?_, ?_⟩
    · rintro rfl
      exact hcovered (by decide)
    · rintro rfl
      exact hcovered (by decide)
  · rintro ⟨hmissed, hunspecified, hbroadcast⟩
    rcases v4 with ⟨o0, o1, o2, o3⟩
    have h0 := o0.toNat_lt
    have h1 := o1.toNat_lt
    revert hmissed hunspecified hbroadcast
    simp only [coveredBlocks, missedBlocks, inBlocks_cons, inBlocks_nil, or_false,
      contains_block_24_iff, contains_block_32_iff, contains_block_iff, Nat.reduceLeDiff,
      Nat.reduceSub, unspecified, broadcast, ne_eq, mk.injEq, ← UInt8.toNat_inj, UInt8.reduceToNat]
    intro hmissed hunspecified hbroadcast
    rcases hmissed with h | h | h | h | h
    all_goals
      rintro (hc | hc | hc | hc | hc | hc | hc | hc | hc | hc)
      all_goals omega

end Ipv4Addr

namespace Ipv6Addr

def toNat (v6 : Ipv6Addr) : ℕ :=
  [v6.s0, v6.s1, v6.s2, v6.s3, v6.s4, v6.s5, v6.s6, v6.s7].foldl
    (fun n segment => n * 65536 + segment.toNat) 0

/-- The networks end in zeros. -/
def block (s0 s1 : UInt16) (len : ℕ) : Block 128 :=
  ⟨toNat ⟨s0, s1, 0, 0, 0, 0, 0, 0⟩, len⟩

/-- The blocks that the code looks for: unique local, link-local and documentation addresses. -/
def coveredBlocks : List (Block 128) :=
  [block 0xfc00 0 7, block 0xfe80 0 10, block 0x2001 0x0db8 32]

/-- Those that it does not look for: what is reserved outside of the unicast addresses, with the
discard prefix, segment identifiers and site-local addresses in it, and among the unicast addresses
protocol assignments and documentation. -/
def missedBlocks : List (Block 128) :=
  [ block 0 0 8, block 0x0100 0 8, block 0x0200 0 7, block 0x0400 0 6, block 0x0800 0 5,
    block 0x1000 0 4, block 0x4000 0 3, block 0x6000 0 3, block 0x8000 0 3, block 0xa000 0 3,
    block 0xc000 0 3, block 0xe000 0 4, block 0xf000 0 5, block 0xf800 0 6, block 0xfe00 0 9,
    block 0xfec0 0 10, block 0x2001 0 23, block 0x3fff 0 20 ]

/-- The protocol assignments that are reachable from everywhere. -/
def reachableBlocks : List (Block 128) :=
  [ ⟨toNat ⟨0x2001, 1, 0, 0, 0, 0, 0, 1⟩, 128⟩, ⟨toNat ⟨0x2001, 1, 0, 0, 0, 0, 0, 2⟩, 128⟩,
    ⟨toNat ⟨0x2001, 1, 0, 0, 0, 0, 0, 3⟩, 128⟩, block 0x2001 3 32,
    ⟨toNat ⟨0x2001, 4, 0x112, 0, 0, 0, 0, 0⟩, 48⟩, block 0x2001 0x20 28, block 0x2001 0x30 28 ]

/-- The octets behind a prefix of 48 bits, without the eight bits in the middle that are not
used. -/
def v4BehindPrefix (v6 : Ipv6Addr) : Ipv4Addr :=
  ⟨(v6.s3 >>> 8).toUInt8, v6.s3.toUInt8, v6.s4.toUInt8, (v6.s5 >>> 8).toUInt8⟩

/-- The IPv4 addresses that an IPv6 address stands for. The last form may have a longer prefix, or
its address right behind the prefix. -/
inductive Embeds : Ipv6Addr → Ipv4Addr → Prop where
  | mapped (s6 s7 : UInt16) :
      Embeds ⟨0, 0, 0, 0, 0, 0xffff, s6, s7⟩ (lastV4 ⟨0, 0, 0, 0, 0, 0xffff, s6, s7⟩)
  | compatible (s6 s7 : UInt16) :
      Embeds ⟨0, 0, 0, 0, 0, 0, s6, s7⟩ (lastV4 ⟨0, 0, 0, 0, 0, 0, s6, s7⟩)
  | nat64 (s6 s7 : UInt16) :
      Embeds ⟨0x64, 0xff9b, 0, 0, 0, 0, s6, s7⟩ (lastV4 ⟨0x64, 0xff9b, 0, 0, 0, 0, s6, s7⟩)
  | localNat64 (s3 s4 s5 s6 s7 : UInt16) :
      Embeds ⟨0x64, 0xff9b, 1, s3, s4, s5, s6, s7⟩
        (lastV4 ⟨0x64, 0xff9b, 1, s3, s4, s5, s6, s7⟩)
  | behindPrefix (s3 s4 s5 s6 s7 : UInt16) :
      Embeds ⟨0x64, 0xff9b, 1, s3, s4, s5, s6, s7⟩
        (v4BehindPrefix ⟨0x64, 0xff9b, 1, s3, s4, s5, s6, s7⟩)

/-- An address that is reserved and stands for no other. -/
def Reserved (v6 : Ipv6Addr) : Prop :=
  InBlocks missedBlocks v6.toNat ∧ ¬ InBlocks reachableBlocks v6.toNat ∧ ∀ v4, ¬ v6.Embeds v4

def Excluded (v6 : Ipv6Addr) : Prop :=
  v6 = loopback ∨ v6 = unspecified ∨ InBlocks coveredBlocks v6.toNat ∨ v6.Reserved ∨
    ∃ v4, v6.Embeds v4 ∧ v4.Excluded

/-- A reserved address, or one that stands for an excluded one, where the last octets are no address
that the code looks for if it comes to them. -/
def InGap (v6 : Ipv6Addr) : Prop :=
  v6 ≠ loopback ∧
    (v6.Reserved ∧ ((v6.s0 = 0x64 ∧ v6.s1 = 0xff9b) →
        ¬ InBlocks Ipv4Addr.coveredBlocks v6.lastV4.toNat) ∨
      ¬ InBlocks Ipv4Addr.coveredBlocks v6.lastV4.toNat ∧ ∃ v4, v6.Embeds v4 ∧ v4.Excluded)

/-- Up to 32 bits are those of the first two segments. -/
theorem toNat_div (v6 : Ipv6Addr) {len : ℕ} (hlen : len ≤ 32) :
    v6.toNat / 2 ^ (128 - len) = (v6.s0.toNat * 65536 + v6.s1.toNat) / 2 ^ (32 - len) := by
  have h2 := v6.s2.toNat_lt
  have h3 := v6.s3.toNat_lt
  have h4 := v6.s4.toNat_lt
  have h5 := v6.s5.toNat_lt
  have h6 := v6.s6.toNat_lt
  have h7 := v6.s7.toNat_lt
  rw [show 128 - len = 96 + (32 - len) by omega, pow_add, ← Nat.div_div_eq_div_mul]
  congr 1
  simp only [toNat, List.foldl]
  omega

theorem contains_block_iff (v6 : Ipv6Addr) (s0 s1 : UInt16) {len : ℕ} (hlen : len ≤ 32) :
    (block s0 s1 len).Contains v6.toNat ↔
      (v6.s0.toNat * 65536 + v6.s1.toNat) / 2 ^ (32 - len) =
        (s0.toNat * 65536 + s1.toNat) / 2 ^ (32 - len) := by
  rw [Block.Contains, block, toNat_div v6 hlen, toNat_div ⟨s0, s1, 0, 0, 0, 0, 0, 0⟩ hlen]

/-- The protocol assignments share their first segment. -/
theorem s0_of_reachable {v6 : Ipv6Addr} (h : InBlocks reachableBlocks v6.toNat) :
    v6.s0 = 0x2001 := by
  rcases h with ⟨⟨network, len⟩, hblock, hcontains⟩
  have hblocks : ∀ b ∈ reachableBlocks, 16 ≤ b.len ∧ b.len ≤ 128 ∧ b.network / 2 ^ 112 = 0x2001 := by
    decide
  rcases hblocks _ hblock with ⟨hlen, hwidth, hnetwork⟩
  have hfirst : v6.toNat / 2 ^ 112 = network / 2 ^ 112 := hcontains.of_le hlen hwidth
  have hnetwork : network / 2 ^ 112 = 0x2001 := hnetwork
  have hdiv := @toNat_div v6 16 (by decide)
  have h1 := v6.s1.toNat_lt
  simp only [Nat.reduceSub] at hdiv
  rw [← UInt16.toNat_inj]
  change v6.s0.toNat = 0x2001
  omega

theorem and_fe00_iff (s : UInt16) : s &&& 0xfe00 = 0xfc00 ↔ s.toNat / 512 = 126 := by
  rw [← UInt16.toNat_inj, UInt16.toNat_and]
  exact and_mask_eq_iff (n := 7) (k := 9) (y := 126) s.toNat_lt

theorem and_ffc0_iff (s : UInt16) : s &&& 0xffc0 = 0xfe80 ↔ s.toNat / 64 = 1018 := by
  rw [← UInt16.toNat_inj, UInt16.toNat_and]
  exact and_mask_eq_iff (n := 10) (k := 6) (y := 1018) s.toNat_lt

theorem inBlocks_covered_iff (v6 : Ipv6Addr) :
    InBlocks coveredBlocks v6.toNat ↔
      v6.s0 &&& 0xfe00 = 0xfc00 ∨ v6.s0 &&& 0xffc0 = 0xfe80 ∨
        (v6.s0 = 0x2001 ∧ v6.s1 = 0x0db8) := by
  have h0 := v6.s0.toNat_lt
  have h1 := v6.s1.toNat_lt
  simp only [coveredBlocks, inBlocks_cons, inBlocks_nil, or_false, contains_block_iff,
    Nat.reduceLeDiff, Nat.reduceSub, and_fe00_iff, and_ffc0_iff]
  simp only [← UInt16.toNat_inj, UInt16.reduceToNat]
  repeat' apply or_congr
  all_goals omega

/-- Where the code comes to the last octets, it looks at nothing else. -/
theorem isPrivateIp_of_embeds {v6 : Ipv6Addr} {v4 : Ipv4Addr} (h : v6.Embeds v4) :
    v6.isPrivateIp = true ↔ v6 = loopback ∨ v6.lastV4.isPrivateIp = true := by
  have hunspecified : unspecified.lastV4.isPrivateIp = true := by decide
  have hfe00 : ¬ (0x64 : UInt16) &&& 0xfe00 = 0xfc00 := by decide
  have hffc0 : ¬ (0x64 : UInt16) &&& 0xffc0 = 0xfe80 := by decide
  cases h with
  | mapped s6 s7 => simp [isPrivateIp, loopback, unspecified, toIpv4Mapped]
  | compatible s6 s7 =>
      by_cases hv6 : (⟨0, 0, 0, 0, 0, 0, s6, s7⟩ : Ipv6Addr) = unspecified
      · rw [hv6]
        simp [isPrivateIp, hunspecified]
      · simp [isPrivateIp, hv6, toIpv4Mapped, toIpv4]
  | nat64 s6 s7 => simp [isPrivateIp, loopback, unspecified, hfe00, hffc0]
  | localNat64 s3 s4 s5 s6 s7 => simp [isPrivateIp, loopback, unspecified, hfe00, hffc0]
  | behindPrefix s3 s4 s5 s6 s7 => simp [isPrivateIp, loopback, unspecified, hfe00, hffc0]

/-- Of the covered blocks none is missed. -/
theorem not_covered_of_missed {v6 : Ipv6Addr} (h : InBlocks missedBlocks v6.toNat) :
    ¬ InBlocks coveredBlocks v6.toNat := by
  have h0 := v6.s0.toNat_lt
  have h1 := v6.s1.toNat_lt
  revert h
  simp only [missedBlocks, coveredBlocks, inBlocks_cons, inBlocks_nil, or_false,
    contains_block_iff, Nat.reduceLeDiff, Nat.reduceSub, UInt16.reduceToNat]
  intro h
  omega

theorem embeds_of_toIpv4 {v6 : Ipv6Addr} {v4 : Ipv4Addr}
    (h : v6.toIpv4Mapped = some v4 ∨ v6.toIpv4 = some v4) : v6.Embeds v4 := by
  rcases v6 with ⟨s0, s1, s2, s3, s4, s5, s6, s7⟩
  simp only [toIpv4Mapped, toIpv4] at h
  rcases h with h | h
  · split at h
    · next hv6 =>
      obtain ⟨rfl, rfl, rfl, rfl, rfl, rfl⟩ := hv6
      cases h
      exact .mapped s6 s7
    · cases h
  · split at h
    · next hv6 =>
      obtain ⟨rfl, rfl, rfl, rfl, rfl, rfl | rfl⟩ := hv6
      · cases h
        exact .compatible s6 s7
      · cases h
        exact .mapped s6 s7
    · cases h

/-- Of a reserved address the code looks at the last octets only behind the NAT64 prefix. -/
theorem isPrivateIp_of_reserved {v6 : Ipv6Addr} (h : v6.Reserved) :
    v6.isPrivateIp = true ↔ (v6.s0 = 0x64 ∧ v6.s1 = 0xff9b) ∧ v6.lastV4.isPrivateIp = true := by
  have hcovered := not_covered_of_missed h.1
  rw [inBlocks_covered_iff, not_or, not_or] at hcovered
  have hloopback : ¬ (v6 = loopback ∨ v6 = unspecified) := by
    rintro (rfl | rfl)
    · exact h.2.2 _ (.compatible 0 1)
    · exact h.2.2 _ (.compatible 0 0)
  have hmapped : v6.toIpv4Mapped = none :=
    Option.eq_none_iff_forall_ne_some.mpr fun v4 hv4 => h.2.2 v4 (embeds_of_toIpv4 (.inl hv4))
  have hv4 : v6.toIpv4 = none :=
    Option.eq_none_iff_forall_ne_some.mpr fun v4 hv4 => h.2.2 v4 (embeds_of_toIpv4 (.inr hv4))
  rw [isPrivateIp, if_neg hloopback, if_neg hcovered.1, if_neg hcovered.2.1,
    if_neg hcovered.2.2, hmapped, hv4]
  by_cases hfront : v6.s0 = 0x0064 ∧ v6.s1 = 0xff9b
  · simp [hfront]
  · simp [hfront]

/-- An excluded address passes exactly if it is in the gap. -/
theorem isPrivateIp_eq_false_iff {v6 : Ipv6Addr} (h : v6.Excluded) :
    v6.isPrivateIp = false ↔ v6.InGap := by
  rw [InGap, ← Ipv4Addr.isPrivateIp_iff, ← Bool.not_eq_true]
  constructor
  · intro hpass
    rcases h with rfl | rfl | hblocks | hreserved | ⟨v4, hembeds, hv4⟩
    · exact absurd (by decide) hpass
    · exact absurd (by decide) hpass
    · rw [inBlocks_covered_iff] at hblocks
      rcases hblocks with hs | hs | hs
      · exact absurd (by simp [isPrivateIp, hs]) hpass
      · exact absurd (by simp [isPrivateIp, hs]) hpass
      · exact absurd (by simp [isPrivateIp, hs]) hpass
    · rw [isPrivateIp_of_reserved hreserved, not_and] at hpass
      refine ⟨?_, .inl ⟨hreserved, hpass⟩⟩
      rintro rfl
      exact hreserved.2.2 _ (.compatible 0 1)
    · rw [isPrivateIp_of_embeds hembeds, not_or] at hpass
      exact ⟨hpass.1, .inr ⟨hpass.2, v4, hembeds, hv4⟩⟩
  · rintro ⟨hloopback, ⟨hreserved, hlast⟩ | ⟨hlast, v4, hembeds, -⟩⟩
    · rw [isPrivateIp_of_reserved hreserved, not_and]
      exact hlast
    · rw [isPrivateIp_of_embeds hembeds, not_or]
      exact ⟨hloopback, hlast⟩

theorem excluded_of_inGap {v6 : Ipv6Addr} (h : v6.InGap) : v6.Excluded := by
  rcases h.2 with ⟨hreserved, -⟩ | ⟨-, hembeds⟩
  · exact .inr (.inr (.inr (.inl hreserved)))
  · exact .inr (.inr (.inr (.inr hembeds)))

/-- What the code refuses is excluded. -/
theorem excluded_of_isPrivateIp {v6 : Ipv6Addr} (h : v6.isPrivateIp = true) : v6.Excluded := by
  by_cases hembeds : ∃ v4, v6.Embeds v4
  · rcases hembeds with ⟨v4, hembeds⟩
    rcases (isPrivateIp_of_embeds hembeds).mp h with hloopback | hlast
    · exact .inl hloopback
    · refine .inr (.inr (.inr (.inr ⟨v6.lastV4, ?_, Ipv4Addr.excluded_of_isPrivateIp hlast⟩)))
      cases hembeds with
      | mapped s6 s7 => exact .mapped s6 s7
      | compatible s6 s7 => exact .compatible s6 s7
      | nat64 s6 s7 => exact .nat64 s6 s7
      | localNat64 s3 s4 s5 s6 s7 => exact .localNat64 s3 s4 s5 s6 s7
      | behindPrefix s3 s4 s5 s6 s7 => exact .localNat64 s3 s4 s5 s6 s7
  · by_cases hcovered : InBlocks coveredBlocks v6.toNat
    · exact .inr (.inr (.inl hcovered))
    · have hno : ∀ v4, ¬ v6.Embeds v4 := fun v4 hv4 => hembeds ⟨v4, hv4⟩
      by_cases hfront : v6.s0 = 0x0064 ∧ v6.s1 = 0xff9b
      · refine .inr (.inr (.inr (.inl ⟨?_, ?_, hno⟩)))
        · simp [missedBlocks, contains_block_iff, hfront.1, hfront.2]
        · intro hreachable
          have hs0 := s0_of_reachable hreachable
          rw [hfront.1] at hs0
          exact absurd hs0 (by decide)
      · exfalso
        rw [inBlocks_covered_iff, not_or, not_or] at hcovered
        have hloopback : ¬ (v6 = loopback ∨ v6 = unspecified) := by
          rintro (rfl | rfl)
          · exact hno _ (.compatible 0 1)
          · exact hno _ (.compatible 0 0)
        have hmapped : v6.toIpv4Mapped = none :=
          Option.eq_none_iff_forall_ne_some.mpr fun v4 hv4 => hno v4 (embeds_of_toIpv4 (.inl hv4))
        have hv4 : v6.toIpv4 = none :=
          Option.eq_none_iff_forall_ne_some.mpr fun v4 hv4 => hno v4 (embeds_of_toIpv4 (.inr hv4))
        rw [isPrivateIp, if_neg hloopback, if_neg hcovered.1, if_neg hcovered.2.1,
          if_neg hcovered.2.2, hmapped, hv4, if_neg hfront] at h
        cases h

end Ipv6Addr

namespace IpAddr

def Excluded : IpAddr → Prop
  | v4 addr => addr.Excluded
  | v6 addr => addr.Excluded

def InGap : IpAddr → Prop
  | v4 addr => addr.InGap
  | v6 addr => addr.InGap

/-- An excluded address passes the check exactly if it is in the gap. -/
theorem isPrivateIp_eq_false_iff {ip : IpAddr} (h : ip.Excluded) :
    isPrivateIp ip = false ↔ ip.InGap := by
  cases ip with
  | v4 addr => exact Ipv4Addr.isPrivateIp_eq_false_iff h
  | v6 addr => exact Ipv6Addr.isPrivateIp_eq_false_iff h

theorem excluded_of_inGap {ip : IpAddr} (h : ip.InGap) : ip.Excluded := by
  cases ip with
  | v4 addr => exact Ipv4Addr.excluded_of_inGap h
  | v6 addr => exact Ipv6Addr.excluded_of_inGap h

/-- What the code refuses is excluded. -/
theorem excluded_of_isPrivateIp {ip : IpAddr} (h : isPrivateIp ip = true) : ip.Excluded := by
  cases ip with
  | v4 addr => exact Ipv4Addr.excluded_of_isPrivateIp h
  | v6 addr => exact Ipv6Addr.excluded_of_isPrivateIp h

end IpAddr

/-! ## One hop -/

variable {libs : Libraries} {world : ℕ → Exchange} {auth : String}

/-- The answers that a URL is checked with, all of which pass. -/
def Validated (url : Url) (exchange : Exchange) : Prop :=
  ∃ addrs, url.resolve exchange.checked = some addrs ∧ ∀ ip ∈ addrs, isPrivateIp ip = false

theorem validateUrlTarget_eq_ok_iff {url : Url} {exchange : Exchange} :
    validateUrlTarget url exchange = .ok () ↔ Validated url exchange := by
  unfold validateUrlTarget Validated Url.resolve
  cases url.host with
  | none => simp
  | some host =>
      simp only [Option.bind_some]
      cases host.resolve exchange.checked with
      | none => simp
      | some addrs =>
          simp only [Option.some.injEq, exists_eq_left']
          cases hfind : addrs.find? isPrivateIp with
          | none =>
              have hpass := List.find?_eq_none.mp hfind
              simpa using hpass
          | some ip =>
              have hip := List.find?_some hfind
              have hmem := List.mem_of_find?_eq_some hfind
              simp only [reduceCtorEq, false_iff]
              intro hpass
              rw [hpass ip hmem] at hip
              cases hip

/-- The client connects only to addresses that the check saw or would let pass, and none of them is in
the gap. -/
def SafeHop (url : Url) (exchange : Exchange) : Prop :=
  ∀ address, connect url exchange = some address →
    ((∃ addrs, url.resolve exchange.checked = some addrs ∧ address ∈ addrs) ∨
        isPrivateIp address = false) ∧
      ¬ address.InGap

theorem safeHop_iff {url : Url} {exchange : Exchange} (hvalidated : Validated url exchange) :
    SafeHop url exchange ↔
      ∀ address, connect url exchange = some address → ¬ address.Excluded := by
  rcases hvalidated with ⟨addrs, hresolve, hpass⟩
  refine forall₂_congr fun address _ => ?_
  constructor
  · rintro ⟨hseen, hgap⟩ hexcluded
    have hpublic : isPrivateIp address = false := by
      rcases hseen with ⟨addrs', hresolve', hmem⟩ | hpublic
      · rw [hresolve] at hresolve'
        cases hresolve'
        exact hpass address hmem
      · exact hpublic
    exact hgap ((IpAddr.isPrivateIp_eq_false_iff hexcluded).mp hpublic)
  · intro hexcluded
    constructor
    · right
      rw [← Bool.not_eq_true]
      exact fun hprivate => hexcluded (IpAddr.excluded_of_isPrivateIp hprivate)
    · exact fun hgap => hexcluded (IpAddr.excluded_of_inGap hgap)

/-! ## Runs -/

/-- The URLs that an import requests: the first one and those that it is redirected to, as long as
they are checked and no redirect too many. -/
inductive Visits (libs : Libraries) (world : ℕ → Exchange) (auth : String) (first : Url) :
    ℕ → Url → Prop where
  | first : isHttp first = true → Validated first (world 0) → libs.isHeaderValue auth = true →
      Visits libs world auth first 0 first
  | redirect {hop : ℕ} {url next : Url} {address : IpAddr} {response : Response}
      {location : String} :
      Visits libs world auth first hop url → connect url (world hop) = some address →
      (world hop).response = some response → response.isRedirection = true →
      hop < maxRedirects → response.location = some location →
      libs.join url location = some next → isHttp next = true →
      Validated next (world (hop + 1)) → Visits libs world auth first (hop + 1) next

theorem Visits.validated {first : Url} {hop : ℕ} {url : Url}
    (h : Visits libs world auth first hop url) : Validated url (world hop) := by
  cases h with
  | first _ hvalidated => exact hvalidated
  | redirect _ _ _ _ _ _ _ _ hvalidated => exact hvalidated

theorem Visits.hop_le {first : Url} {hop : ℕ} {url : Url}
    (h : Visits libs world auth first hop url) : hop ≤ maxRedirects := by
  cases h with
  | first => exact Nat.zero_le _
  | redirect _ _ _ _ hlt => exact hlt

theorem Visits.start {first : Url} {hop : ℕ} {url : Url}
    (h : Visits libs world auth first hop url) :
    isHttp first = true ∧ Validated first (world 0) ∧ libs.isHeaderValue auth = true := by
  induction h with
  | first hhttp hvalidated hheader => exact ⟨hhttp, hvalidated, hheader⟩
  | redirect _ _ _ _ _ _ _ _ _ ih => exact ih

theorem redirectTarget_eq_ok_iff {hop : ℕ} {url next : Url} {response : Response} :
    redirectTarget libs world hop url response = .ok next ↔
      (∃ location, response.location = some location ∧ libs.join url location = some next) ∧
        isHttp next = true ∧ Validated next (world (hop + 1)) := by
  unfold redirectTarget
  cases response.location with
  | none => simp
  | some location =>
      simp only [Option.some.injEq, exists_eq_left']
      cases libs.join url location with
      | none => simp
      | some target =>
          rw [← validateUrlTarget_eq_ok_iff]
          by_cases hhttp : isHttp target = true
          · cases hvalidate : validateUrlTarget target (world (hop + 1)) with
            | error e =>
                simp only [hhttp, hvalidate, not_true, if_false, Except.map, reduceCtorEq, false_iff]
                rintro ⟨heq, -, hok⟩
                rw [← Option.some.inj heq, hvalidate] at hok
                cases hok
            | ok u =>
                simp only [hhttp, hvalidate, not_true, if_false, Except.map, Except.ok.injEq,
                  Option.some.injEq]
                constructor
                · rintro rfl
                  exact ⟨rfl, hhttp, hvalidate⟩
                · exact fun h => h.1
          · simp only [hhttp, not_false_eq_true, if_true, reduceCtorEq, false_iff]
            rintro ⟨heq, hnext, -⟩
            exact hhttp (Option.some.inj heq ▸ hnext)

/-- A request is the hop's own, or one behind its redirect. -/
theorem mem_fetchHops {remaining hop : ℕ} {url : Url} {request : Request} :
    request ∈ (fetchHops libs world auth remaining hop url).1 ↔
    ∃ address, connect url (world hop) = some address ∧
      (request = hopRequest auth hop url address ∨
        ∃ rest response next, remaining = rest + 1 ∧ (world hop).response = some response ∧
          response.isRedirection = true ∧
          redirectTarget libs world hop url response = .ok next ∧
          request ∈ (fetchHops libs world auth rest (hop + 1) next).1) := by
  rw [fetchHops.eq_def]
  cases connect url (world hop) with
  | none => simp
  | some address =>
      simp only [Option.some.injEq, exists_eq_left']
      cases (world hop).response with
      | none => simp
      | some response =>
          cases hredirection : response.isRedirection with
          | false =>
              cases hsuccess : response.isSuccess <;> simp [hredirection, hsuccess]
          | true =>
              cases remaining with
              | zero => simp [hredirection]
              | succ rest =>
                  cases hnext : redirectTarget libs world hop url response with
                  | error e => simp [hredirection, hnext]
                  | ok next => simp [hredirection, hnext]

/-- What every request is like. -/
structure Proper (libs : Libraries) (world : ℕ → Exchange) (auth : String) (first : Url)
    (request : Request) : Prop where
  visits : Visits libs world auth first request.hop request.url
  connected : connect request.url (world request.hop) = some request.address
  authorization : request.authorization = if request.hop = 0 then some auth else none

theorem proper_fetchHops {first : Url} {remaining hop : ℕ} {url : Url}
    (hvisits : Visits libs world auth first hop url) (hhop : hop + remaining = maxRedirects) :
    ∀ request ∈ (fetchHops libs world auth remaining hop url).1,
      Proper libs world auth first request := by
  intro request hrequest
  induction remaining generalizing hop url with
  | zero =>
      rcases mem_fetchHops.mp hrequest with ⟨address, hconnect, rfl | ⟨rest, _, _, hrest, -⟩⟩
      · exact ⟨hvisits, hconnect, rfl⟩
      · omega
  | succ remaining ih =>
      rcases mem_fetchHops.mp hrequest with
        ⟨address, hconnect, rfl |
          ⟨rest, response, next, hrest, hresponse, hredirection, hnext, hmem⟩⟩
      · exact ⟨hvisits, hconnect, rfl⟩
      · rcases redirectTarget_eq_ok_iff.mp hnext with
          ⟨⟨location, hlocation, hjoin⟩, hhttp, hvalidated⟩
        obtain rfl : rest = remaining := by omega
        have hnext := hvisits.redirect hconnect hresponse hredirection (by omega) hlocation hjoin
          hhttp hvalidated
        exact ih hnext (by omega) hmem

/-- The requests from a visited URL on are all sent. -/
theorem Visits.mem_fetchHops {first : Url} {hop : ℕ} {url : Url} {request : Request}
    (h : Visits libs world auth first hop url)
    (hrequest : request ∈ (fetchHops libs world auth (maxRedirects - hop) hop url).1) :
    request ∈ (fetchHops libs world auth maxRedirects 0 first).1 := by
  induction h with
  | first => exact hrequest
  | @redirect hop url next address response location hvisits hconnect hresponse hredirection hlt
      hlocation hjoin hhttp hvalidated ih =>
      apply ih
      refine UrlImport.mem_fetchHops.mpr ⟨address, hconnect, .inr ⟨maxRedirects - (hop + 1), response,
        next, by omega, hresponse, hredirection, ?_, hrequest⟩⟩
      exact redirectTarget_eq_ok_iff.mpr ⟨⟨location, hlocation, hjoin⟩, hhttp, hvalidated⟩

/-- The requests of an import are those to the URLs that it visits. -/
theorem mem_importUrl {url : String} {request : Request} :
    request ∈ (importUrl libs world auth url).1 ↔
      ∃ first, libs.parse url = some first ∧ Proper libs world auth first request := by
  constructor
  · intro h
    unfold importUrl at h
    split at h
    · cases h
    next first hparse =>
    split at h
    · cases h
    next hhttp =>
    split at h
    · cases h
    next hvalidate =>
    split at h
    · cases h
    next hheader =>
    have hvisits : Visits libs world auth first 0 first :=
      .first (by simpa using hhttp) (validateUrlTarget_eq_ok_iff.mp hvalidate)
        (by simpa using hheader)
    exact ⟨first, hparse, proper_fetchHops hvisits (Nat.zero_add _) request h⟩
  · rintro ⟨first, hparse, hproper⟩
    have hrequest : request ∈ (fetchHops libs world auth (maxRedirects - request.hop) request.hop
        request.url).1 := by
      refine mem_fetchHops.mpr ⟨request.address, hproper.connected, .inl ?_⟩
      rw [hopRequest, ← hproper.authorization]
    have hmem := hproper.visits.mem_fetchHops hrequest
    have hstart : isHttp first = true ∧ Validated first (world 0) ∧
        libs.isHeaderValue auth = true := hproper.visits.start
    unfold importUrl
    simp only [hparse, hstart.1, hstart.2.2, validateUrlTarget_eq_ok_iff.mpr hstart.2.1, not_true,
      if_false]
    exact hmem

/-- Only the first request carries the authorization, and no request goes to an excluded address
exactly if at every URL that is requested the client connects to an address that the check saw or would
let pass, and to none in the gap. -/
theorem importUrl_stays_public_iff (libs : Libraries) (world : ℕ → Exchange) (auth url : String) :
    (∀ request ∈ (importUrl libs world auth url).1, request.authorization ≠ none →
      request.hop = 0 ∧ libs.parse url = some request.url) ∧
    ((∀ request ∈ (importUrl libs world auth url).1, ¬ request.address.Excluded) ↔
      ∀ first hop current, libs.parse url = some first → Visits libs world auth first hop current →
        SafeHop current (world hop)) := by
  constructor
  · intro request hrequest hauthorization
    rcases mem_importUrl.mp hrequest with ⟨first, hparse, hproper⟩
    have hhop : request.hop = 0 := by
      by_contra hhop
      rw [hproper.authorization, if_neg hhop] at hauthorization
      exact hauthorization rfl
    have hvisits := hproper.visits
    rw [hhop] at hvisits
    refine ⟨hhop, ?_⟩
    cases hvisits
    exact hparse
  · constructor
    · intro hexcluded first hop current hparse hvisits
      refine (safeHop_iff hvisits.validated).mpr fun address hconnect => ?_
      exact hexcluded (hopRequest auth hop current address)
        (mem_importUrl.mpr ⟨first, hparse, hvisits, hconnect, rfl⟩)
    · intro hsafe request hrequest
      rcases mem_importUrl.mp hrequest with ⟨first, hparse, hproper⟩
      exact (safeHop_iff hproper.visits.validated).mp
        (hsafe first _ _ hparse hproper.visits) _ hproper.connected

/-! A name with two answers, a reserved address of either kind, and one that stands for a private
address. -/

private def picture : Url :=
  { scheme := "https", host := some (.name "pictures") }

private def reserved : Url :=
  { scheme := "http", host := some (.ip (.v4 ⟨240, 0, 0, 1⟩)) }

private def siteLocal : Url :=
  { scheme := "http", host := some (.ip (.v6 ⟨0xfec0, 0, 0, 0, 0, 0, 0, 1⟩)) }

/-- 10.0.0.1 behind a local NAT64 prefix, with 8.8.8.8 at the end. -/
private def translated : Url :=
  { scheme := "http"
    host := some (.ip (.v6 ⟨0x64, 0xff9b, 1, 0x0a00, 0, 0x0100, 0x0808, 0x0808⟩)) }

private def libraries : Libraries where
  parse text :=
    if text = "https://pictures/" then some picture
    else if text = "http://240.0.0.1/" then some reserved
    else if text = "http://[fec0::1]/" then some siteLocal
    else if text = "http://[64:ff9b:1:a00:0:100:808:808]/" then some translated
    else none
  join _ _ := none
  isHeaderValue _ := true

/-- The second lookup of a name gives the address of the metadata service. -/
private def rebinding (_ : ℕ) : Exchange :=
  { checked := some [.v4 ⟨93, 184, 216, 34⟩]
    asked := some [.v4 ⟨169, 254, 169, 254⟩]
    response := some { status := 200 } }

private theorem reserved_siteLocal : Ipv6Addr.Reserved ⟨0xfec0, 0, 0, 0, 0, 0, 0, 1⟩ := by
  refine ⟨by decide, by decide, fun v4 hembeds => ?_⟩
  cases hembeds

/-- The name is answered differently the second time, or an address is in the gap. -/
theorem not_stays_public :
    (∃ request ∈ (importUrl libraries rebinding "Bearer x" "https://pictures/").1,
      request.address.Excluded) ∧
    (∃ request ∈ (importUrl libraries rebinding "Bearer x" "http://240.0.0.1/").1,
      request.address.Excluded) ∧
    (∃ request ∈ (importUrl libraries rebinding "Bearer x" "http://[fec0::1]/").1,
      request.address.Excluded) ∧
    ∃ request ∈ (importUrl libraries rebinding "Bearer x"
        "http://[64:ff9b:1:a00:0:100:808:808]/").1, request.address.Excluded := by
  refine ⟨⟨_, List.mem_cons_self, ?_⟩, ⟨_, List.mem_cons_self, ?_⟩, ⟨_, List.mem_cons_self, ?_⟩, _,
    List.mem_cons_self, ?_⟩
  · show Ipv4Addr.Excluded ⟨169, 254, 169, 254⟩
    decide
  · show Ipv4Addr.Excluded ⟨240, 0, 0, 1⟩
    decide
  · exact .inr (.inr (.inr (.inl reserved_siteLocal)))
  · refine .inr (.inr (.inr (.inr ⟨⟨10, 0, 0, 1⟩, Ipv6Addr.Embeds.behindPrefix _ _ _ _ _, ?_⟩)))
    decide

end UrlImport

end Oxen
