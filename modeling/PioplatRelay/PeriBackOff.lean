import PioplatRelay.PeriEviction

/-!
# How long drops block an IP

The first drop of a peer blocks its IP for twenty minutes, and the `k`-th one for `2 ^ k`
times as long, in nanoseconds of 64 bits.  The durations grow up to the drop before the
product leaves the range.
-/

namespace PioplatRelay.Peri

open List Option

def countOf (p : Peri) (ip : String) : Option Int64 := (p.blocklist.lookup ip).map BlockItem.count

structure Drop (ip : String) where
  choices : Choices
  before : Peri
  id : String
  after : Peri
  found : before.ipOf id = some ip
  dropped : before.dropPeer choices id = some after

variable {ip : String}

def Drop.duration (drop : Drop ip) : Int :=
  ((drop.after.blocklist.lookup ip).map BlockItem.expiredTime).getD 0 - drop.choices.now drop.id

/-- Drops one after the other.  Between them anything may happen that keeps the count of
the IP, as a restart does. -/
def Successive : Option Int64 → List (Drop ip) → Prop
  | _, [] => True
  | count, drop :: drops =>
    drop.before.countOf ip = count ∧ Successive (drop.after.countOf ip) drops

def dropDuration (k : Nat) : Int := (blockDuration (if k = 1 then 0 else Int64.ofNat k)).toInt

theorem Drop.lookup_after (drop : Drop ip) :
    drop.after.blocklist.lookup ip = some (match drop.before.blocklist.lookup ip with
        | some blockedItem => { blockedItem with
            count := blockedItem.count + 1
            expiredTime :=
              drop.choices.now drop.id + (blockDuration (blockedItem.count + 1)).toInt }
        | none => ⟨ip, 1, drop.choices.now drop.id + (blockDuration 0).toInt⟩) := by
  have dropped := drop.dropped
  have found : extractIPFromEnode (drop.before.enode drop.id) = some ip := drop.found
  simp only [dropPeer,found,bind_eq_bind,bind_some,Option.pure_def,some_inj] at dropped
  rw [← dropped]
  exact Finmap.lookup_insert _

theorem Drop.first {drop : Drop ip} (fresh : drop.before.countOf ip = none) :
    drop.after.countOf ip = some 1 ∧ drop.duration = dropDuration 1 := by
  have missing := map_eq_none_iff.mp fresh
  have after := drop.lookup_after
  rw [missing] at after
  constructor
  · rw [countOf,after]
    rfl
  · rw [Drop.duration,after]
    simp [dropDuration]

theorem Drop.next {drop : Drop ip} {k : Nat} (positive : 1 ≤ k)
    (counted : drop.before.countOf ip = some (Int64.ofNat k)) :
    drop.after.countOf ip = some (Int64.ofNat (k + 1)) ∧ drop.duration = dropDuration (k + 1) := by
  obtain ⟨item,itemEq,countEq⟩ := map_eq_some_iff.mp counted
  have after := drop.lookup_after
  have nextCount : item.count + 1 = Int64.ofNat (k + 1) := by
    rw [countEq,Int64.ofNat_add]
    rfl
  rw [itemEq] at after
  simp only [nextCount] at after
  constructor
  · rw [countOf,after]
    rfl
  · have later : ¬ k + 1 = 1 := by omega
    rw [Drop.duration,after,dropDuration,if_neg later]
    simp

theorem Successive.durations_eq {drops : List (Drop ip)} {k : Nat} (positive : 1 ≤ k)
    (successive : Successive (some (Int64.ofNat k)) drops) :
    drops.map Drop.duration = (range' (k + 1) drops.length).map dropDuration := by
  induction drops generalizing k with
  | nil => rfl
  | cons drop drops ih =>
    obtain ⟨counted,rest⟩ := successive
    obtain ⟨afterCount,durationEq⟩ := Drop.next positive counted
    rw [afterCount] at rest
    rw [map_cons,durationEq,ih (Nat.le_add_left 1 k) rest,length_cons,range'_succ,map_cons]

/-- The drops of an IP that is not in the blocklist set one duration after the other. -/
theorem Successive.durations_of_fresh {drops : List (Drop ip)}
    (successive : Successive none drops) :
    drops.map Drop.duration = (range' 1 drops.length).map dropDuration := by
  cases drops with
  | nil => rfl
  | cons drop drops =>
    obtain ⟨fresh,rest⟩ := successive
    obtain ⟨afterCount,durationEq⟩ := Drop.first fresh
    rw [afterCount] at rest
    rw [map_cons,durationEq,rest.durations_eq (le_refl 1),length_cons,range'_succ,map_cons]

/-- Every drop blocks for longer than the one before, for a time that is positive. -/
def BackOff (durations : List Int) : Prop :=
  durations.IsChain fun earlier later => earlier < later ∧ 0 < later

instance (durations : List Int) : Decidable (BackOff durations) :=
  inferInstanceAs (Decidable (List.IsChain _ _))

theorem backOff_durations_iff (n : Nat) : BackOff ((range' 1 n).map dropDuration) ↔ n ≤ 22 := by
  constructor
  · intro backOff
    by_contra more
    have wraps : ¬ dropDuration 22 < dropDuration 23 := by decide
    have growing := isChain_iff_getElem.mp backOff 21
      (by rw [length_map,length_range']; omega)
    simp only [getElem_map,getElem_range'] at growing
    exact wraps growing.1
  · intro few
    have longest : BackOff ((range' 1 22).map dropDuration) := by decide
    have begins : range' 1 n <+: range' 1 22 := by
      refine ⟨range' (1 + n) (22 - n),?_⟩
      rw [range'_append_1,Nat.add_sub_cancel' few]
    exact longest.prefix (begins.map dropDuration)

/-- Any number of drops of peers at an IP that is not in the blocklist: each blocks for
longer than the one before exactly as long as there are no more than 22. -/
theorem successive_backOff_iff {drops : List (Drop ip)} (successive : Successive none drops) :
    BackOff (drops.map Drop.duration) ↔ drops.length ≤ 22 := by
  rw [successive.durations_of_fresh]
  exact backOff_durations_iff drops.length

/-! ### Drops that happen -/

theorem exists_drop {p : Peri} {id : String} (choices : Choices) (found : p.ipOf id = some ip) :
    ∃ drop : Drop ip, drop.before = p ∧ drop.after.ipOf id = some ip := by
  obtain ⟨after,dropped,_,sameSnapShot⟩ : ∃ after, p.dropPeer choices id = some after ∧ _ :=
    dropPeer_evicted found
  refine ⟨⟨choices,p,id,after,found,dropped⟩,rfl,?_⟩
  rw [← found,ipOf,ipOf,enode,enode,sameSnapShot]

theorem exists_successive {p : Peri} {id : String} (found : p.ipOf id = some ip) (n : Nat) :
    ∃ drops : List (Drop ip), Successive (p.countOf ip) drops ∧ drops.length = n := by
  induction n generalizing p with
  | zero => exact ⟨[],trivial,rfl⟩
  | succ n ih =>
    obtain ⟨drop,rfl,foundAfter⟩ := exists_drop .plain found
    obtain ⟨drops,successive,lengthEq⟩ := ih foundAfter
    exact ⟨drop :: drops,⟨rfl,successive⟩,congrArg Nat.succ lengthEq⟩

def notedPeers : Peri :=
  { twoPeers with peersSnapShot := .singleton "first" (EthPeer.ofIp "10.0.0.1" 0).url }

theorem notedPeers_ipOf : notedPeers.ipOf "first" = some "10.0.0.1" := by
  have noted : notedPeers.enode "first" = (EthPeer.ofIp "10.0.0.1" 0).url := by
    rw [enode,notedPeers,Finmap.lookup_singleton_eq]
    rfl
  rw [ipOf,noted]
  exact extractIPFromEnode_ofIp (by decide) 0

theorem successive_backOff_two :
    ∃ drops : List (Drop "10.0.0.1"), Successive none drops ∧ drops.length = 2 ∧
      BackOff (drops.map Drop.duration) := by
  obtain ⟨drops,successive,lengthEq⟩ := exists_successive notedPeers_ipOf 2
  have fresh : notedPeers.countOf "10.0.0.1" = none := rfl
  rw [fresh] at successive
  refine ⟨drops,successive,lengthEq,(successive_backOff_iff successive).mpr ?_⟩
  omega

/-- The 23rd drop blocks for less than no time. -/
theorem backOff_wraps :
    ∃ drops : List (Drop "10.0.0.1"), Successive none drops ∧ drops.length = 23 ∧
      (drops.map Drop.duration)[21]? = some 5033164800000000000 ∧
      (drops.map Drop.duration)[22]? = some (-8380414473709551616) := by
  obtain ⟨drops,successive,lengthEq⟩ := exists_successive notedPeers_ipOf 23
  have fresh : notedPeers.countOf "10.0.0.1" = none := rfl
  rw [fresh] at successive
  refine ⟨drops,successive,lengthEq,?_⟩
  rw [successive.durations_of_fresh,lengthEq]
  decide

end PioplatRelay.Peri
