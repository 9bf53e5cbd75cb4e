import PioplatRelay.CounterMaps

/-!
# Addresses and sets of networks

IP addresses are byte slices, where an IPv4 address has four bytes or the sixteen
of its embedding in IPv6.  A `DistinctNetSet` counts addresses by the network they
are in and refuses an address whose network has reached a limit.
-/

namespace PioplatRelay.NetUtil

open List

abbrev IP := List UInt8

def v4InV6Prefix : IP := [0, 0, 0, 0, 0, 0, 0, 0, 0, 0, 0xff, 0xff]

def to4 (ip : IP) : Option IP :=
  if ip.length = 4 then some ip
  else if ip.length = 16 ∧ ip.take 12 = v4InV6Prefix then some (ip.drop 12)
  else none

def equal (ip x : IP) : Bool :=
  if ip.length = x.length then decide (ip = x)
  else if ip.length = 4 ∧ x.length = 16 then
    decide (x.take 12 = v4InV6Prefix) && decide (ip = x.drop 12)
  else if ip.length = 16 ∧ x.length = 4 then
    decide (ip.take 12 = v4InV6Prefix) && decide (ip.drop 12 = x)
  else false

def ipv6loopback : IP := replicate 15 0 ++ [1]

def isLoopback (ip : IP) : Bool :=
  match to4 ip with
  | some ip4 => decide (ip4.head? = some 127)
  | none => equal ip ipv6loopback

structure IPNet where
  ip : IP
  mask : IP

def IPNet.contains (net : IPNet) (ip : IP) : Bool :=
  let canonical := (to4 ip).getD ip
  decide (canonical.length = net.ip.length) &&
    decide (zipWith (· &&& ·) net.ip net.mask = zipWith (· &&& ·) canonical net.mask)

def lan4 : List IPNet :=
  [⟨[0, 0, 0, 0], [0xff, 0, 0, 0]⟩, ⟨[10, 0, 0, 0], [0xff, 0, 0, 0]⟩,
    ⟨[172, 16, 0, 0], [0xff, 0xf0, 0, 0]⟩, ⟨[192, 168, 0, 0], [0xff, 0xff, 0, 0]⟩]

def lan6 : List IPNet :=
  [⟨[0xfe, 0x80] ++ replicate 14 0, [0xff, 0xc0] ++ replicate 14 0⟩,
    ⟨[0xfc] ++ replicate 15 0, [0xfe] ++ replicate 15 0⟩]

def isLAN (ip : IP) : Bool :=
  isLoopback ip ||
    match to4 ip with
    | some v4 => lan4.any fun net => net.contains v4
    | none => lan6.any fun net => net.contains ip

def key (subnet : Nat) (ip : IP) : IP :=
  let typ : UInt8 := if (to4 ip).isSome then 52 else 54
  let canonical := (to4 ip).getD ip
  let bits := min subnet (canonical.length * 8)
  let nb := bits / 8
  let mask : UInt8 := ~~~((0xff : UInt8) >>> UInt8.ofNat (bits % 8))
  let rest := if mask ≠ 0 then ((canonical.drop nb).take 1).map (· &&& mask) else []
  typ :: (canonical.take nb ++ rest)

structure DistinctNetSet (subnet limit : Nat) where
  members : Finmap fun _ : IP => Int

namespace DistinctNetSet

variable {subnet limit : Nat}

def add (set : DistinctNetSet subnet limit) (ip : IP) : Bool × DistinctNetSet subnet limit :=
  let n := (set.members.lookup (key subnet ip)).getD 0
  if n < limit then (true, ⟨set.members.insert (key subnet ip) (n + 1)⟩) else (false, set)

def remove (set : DistinctNetSet subnet limit) (ip : IP) : DistinctNetSet subnet limit :=
  match set.members.lookup (key subnet ip) with
  | none => set
  | some n =>
    if n = 1 then ⟨set.members.erase (key subnet ip)⟩
    else ⟨set.members.insert (key subnet ip) (n - 1)⟩

variable {set : DistinctNetSet subnet limit} {count : IP → Nat}

theorem add_eq_of_lt (counts : Counts set.members count) {ip : IP}
    (room : count (key subnet ip) < limit) : ∃ after, set.add ip = (true, after) ∧
      Counts after.members (Function.update count (key subnet ip) (count (key subnet ip) + 1)) := by
  have below : (set.members.lookup (key subnet ip)).getD 0 < (limit : Int) := by
    rw [counts.getD_eq]
    exact_mod_cast room
  exact ⟨_,if_pos below,counts.increment (key subnet ip)⟩

theorem add_eq_of_le (counts : Counts set.members count) {ip : IP}
    (full : limit ≤ count (key subnet ip)) : set.add ip = (false, set) := by
  have notBelow : ¬(set.members.lookup (key subnet ip)).getD 0 < (limit : Int) := by
    rw [counts.getD_eq]
    exact_mod_cast full.not_gt
  exact if_neg notBelow

theorem counts_remove (counts : Counts set.members count) (ip : IP) : Counts (set.remove ip).members
      (Function.update count (key subnet ip) (count (key subnet ip) - 1)) := by
  have decremented := counts.decrement (key subnet ip)
  rw [counts.getD_eq] at decremented
  have lookupEq := counts (key subnet ip)
  rw [remove]
  by_cases zero : count (key subnet ip) = 0
  · rw [if_pos zero] at lookupEq
    rw [lookupEq]
    rwa [zero,if_pos (by decide),erase_of_lookup_eq_none lookupEq,← zero] at decremented
  · rw [if_neg zero] at lookupEq
    rw [lookupEq]
    by_cases one : count (key subnet ip) = 1
    · rw [if_pos (by omega)] at decremented
      simp only [show (count (key subnet ip) : Int) = 1 by omega,if_true]
      exact decremented
    · rw [if_neg (by omega)] at decremented
      simp only [show (count (key subnet ip) : Int) ≠ 1 by omega,if_false]
      exact decremented

end DistinctNetSet

theorem eq_of_equal {ip x : IP} (isEqual : equal ip x = true) :
    ip = x ∨ (to4 ip).isSome ∧ to4 ip = to4 x := by
  rw [equal] at isEqual
  split at isEqual
  · exact .inl (of_decide_eq_true isEqual)
  · split at isEqual
    · case isTrue lengths =>
        rw [Bool.and_eq_true,decide_eq_true_iff,decide_eq_true_iff] at isEqual
        refine .inr ?_
        rw [to4,if_pos lengths.1,to4,if_neg (by omega),if_pos ⟨lengths.2,isEqual.1⟩,isEqual.2]
        exact ⟨rfl,rfl⟩
    · split at isEqual
      · case isTrue lengths =>
          rw [Bool.and_eq_true,decide_eq_true_iff,decide_eq_true_iff] at isEqual
          refine .inr ?_
          rw [to4,if_neg (by omega),if_pos ⟨lengths.1,isEqual.1⟩,to4,if_pos lengths.2,isEqual.2]
          exact ⟨rfl,rfl⟩
      · cases isEqual

theorem key_eq_of_equal {ip x : IP} (isEqual : equal ip x = true) (subnet : Nat) :
    key subnet ip = key subnet x := by
  rcases eq_of_equal isEqual with rfl | ⟨isSome,same⟩
  · rfl
  · obtain ⟨ip4,found⟩ := Option.isSome_iff_exists.mp isSome
    simp [key,← same,found]

theorem isLAN_eq_of_equal {ip x : IP} (isEqual : equal ip x = true) : isLAN ip = isLAN x := by
  rcases eq_of_equal isEqual with rfl | ⟨isSome,same⟩
  · rfl
  · obtain ⟨ip4,found⟩ := Option.isSome_iff_exists.mp isSome
    simp [isLAN,isLoopback,← same,found]

end PioplatRelay.NetUtil
