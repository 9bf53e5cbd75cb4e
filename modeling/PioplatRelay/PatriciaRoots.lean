import PioplatRelay.RlpItems

/-!
# Merkle-Patricia roots

The root of a finite map is defined by recursion on the nibbles of its keys.  One pair
is a leaf; keys that share their first nibbles are an extension over the rest; and
otherwise there is a branch.  A child stands in its parent as its encoding if that is
shorter than a hash, and as its hash otherwise.
-/

namespace PioplatRelay.Patricia

open Rlp
open List hiding Vector

abbrev Pair : Type := List UInt8 × List UInt8

/-! ### Paths -/

def packNibbles : List UInt8 → List UInt8
  | high :: low :: rest => (high * 16 + low) :: packNibbles rest
  | _ => []

/-- The hex prefix encoding: a flag for leaves and one for odd lengths, then the
nibbles. -/
def hexPrefix (nibbles : List UInt8) (leaf : Bool) : List UInt8 :=
  let flag : UInt8 := if leaf then 2 else 0
  if nibbles.length % 2 = 0 then (flag * 16) :: packNibbles nibbles
  else ((flag + 1) * 16 + nibbles.headD 0) :: packNibbles nibbles.tail

def lcp : List UInt8 → List UInt8 → List UInt8
  | x :: a, y :: b => if x = y then x :: lcp a b else []
  | _, _ => []

def commonPrefix : List Pair → List UInt8
  | [] => []
  | [pair] => pair.1
  | pair :: pairs => lcp pair.1 (commonPrefix pairs)

def strip (count : Nat) (pairs : List Pair) : List Pair :=
  pairs.map fun pair => (pair.1.drop count, pair.2)

def part (nibble : Fin 16) : List Pair → List Pair
  | [] => []
  | ([], _) :: pairs => part nibble pairs
  | (first :: rest, value) :: pairs =>
    if first.toNat = nibble then (rest, value) :: part nibble pairs else part nibble pairs

theorem lcp_prefix_left (a b : List UInt8) : lcp a b <+: a := by
  induction a generalizing b with
  | nil => cases b <;> exact prefix_rfl
  | cons x a ih =>
    cases b with
    | nil => exact nil_prefix
    | cons y b =>
      rw [lcp]
      split
      · exact (prefix_cons_inj x).mpr (ih b)
      · exact nil_prefix

theorem lcp_prefix_right (a b : List UInt8) : lcp a b <+: b := by
  induction a generalizing b with
  | nil => exact nil_prefix
  | cons x a ih =>
    cases b with
    | nil => exact prefix_rfl
    | cons y b =>
      rw [lcp]
      split
      · rename_i same
        rw [same]
        exact (prefix_cons_inj y).mpr (ih b)
      · exact nil_prefix

theorem lcp_append (front a b : List UInt8) : lcp (front ++ a) (front ++ b) = front ++ lcp a b := by
  induction front with
  | nil => rfl
  | cons x front ih => rw [cons_append,cons_append,lcp,if_pos rfl,ih,cons_append]

theorem commonPrefix_cons_cons (first second : Pair) (pairs : List Pair) :
    commonPrefix (first :: second :: pairs) = lcp first.1 (commonPrefix (second :: pairs)) :=
  rfl

variable {pairs : List Pair} {pair : Pair}

theorem commonPrefix_begins (member : pair ∈ pairs) : commonPrefix pairs <+: pair.1 := by
  induction pairs with
  | nil => cases member
  | cons first pairs ih =>
    cases pairs with
    | nil =>
      rw [mem_singleton.mp member]
      exact prefix_rfl
    | cons second pairs =>
      rw [commonPrefix_cons_cons]
      rcases mem_cons.mp member with rfl | later
      · exact lcp_prefix_left _ _
      · exact (lcp_prefix_right _ _).trans (ih later)

/-! ### Descent -/

def mass (pairs : List Pair) : Nat := (pairs.map fun pair => pair.1.length + 1).sum

theorem mass_cons (pair : Pair) (pairs : List Pair) :
    mass (pair :: pairs) = pair.1.length + 1 + mass pairs := by
  rw [mass,map_cons,sum_cons,mass]

theorem mass_part_le (nibble : Fin 16) (pairs : List Pair) :
    mass (part nibble pairs) + pairs.length ≤ mass pairs := by
  induction pairs with
  | nil => exact Nat.le_refl 0
  | cons pair pairs ih =>
    obtain ⟨key,value⟩ := pair
    rw [mass_cons,length_cons]
    cases key with
    | nil =>
      rw [part]
      omega
    | cons first rest =>
      rw [part]
      split
      · rw [mass_cons]
        simp only [length_cons]
        omega
      · omega

theorem mass_strip_le (count : Nat) (pairs : List Pair) :
    mass (strip count pairs) ≤ mass pairs := by
  induction pairs with
  | nil => exact Nat.le_refl 0
  | cons pair pairs ih =>
    have consEq : strip count (pair :: pairs) =
        (pair.1.drop count, pair.2) :: strip count pairs := rfl
    rw [consEq,mass_cons,mass_cons,length_drop]
    omega

theorem mass_strip_lt (shared : commonPrefix pairs ≠ []) :
    mass (strip (commonPrefix pairs).length pairs) < mass pairs := by
  cases pairs with
  | nil => exact absurd rfl shared
  | cons pair pairs =>
    have begins := (commonPrefix_begins (mem_cons_self (a := pair) (l := pairs))).length_le
    have positive := length_pos_iff.mpr shared
    have rest := mass_strip_le (commonPrefix (pair :: pairs)).length pairs
    have consEq : strip (commonPrefix (pair :: pairs)).length (pair :: pairs) =
        (pair.1.drop (commonPrefix (pair :: pairs)).length, pair.2) ::
          strip (commonPrefix (pair :: pairs)).length pairs := rfl
    rw [consEq,mass_cons,mass_cons,length_drop]
    omega

/-! ### Nodes -/

def wrapList (payload : List UInt8) : List UInt8 := listHeader payload.length ++ payload

def valueItem (pairs : List Pair) : List UInt8 := encodeString ((pairs.lookup []).getD [])

section Encoding

variable (keccak : List UInt8 → Vector UInt8 32)

def reference (encoded : List UInt8) : List UInt8 :=
  if encoded.length < 32 then encoded else encodeString (keccak encoded).toList

/-- The encoding of the node for some pairs; there is an empty string where there is no
node. -/
def encodeNode (pairs : List Pair) : List UInt8 :=
  match pairs with
  | [] => encodeString []
  | [pair] => wrapList (encodeString (hexPrefix pair.1 true) ++ encodeString pair.2)
  | first :: second :: rest =>
    if commonPrefix (first :: second :: rest) ≠ [] then
      wrapList (encodeString (hexPrefix (commonPrefix (first :: second :: rest)) false) ++
        reference keccak (encodeNode
          (strip (commonPrefix (first :: second :: rest)).length (first :: second :: rest))))
    else
      wrapList ((finRange 16).flatMap (fun nibble =>
        reference keccak (encodeNode (part nibble (first :: second :: rest)))) ++
        valueItem (first :: second :: rest))
termination_by mass pairs
decreasing_by
  · rename_i shared
    exact mass_strip_lt shared
  · have smaller := mass_part_le nibble (first :: second :: rest)
    simp only [length_cons] at smaller
    omega

/-- The root of the map that the pairs are, with the given root of the empty map. -/
def root (emptyRoot : Vector UInt8 32) (pairs : List Pair) : Vector UInt8 32 :=
  if pairs = [] then emptyRoot else keccak (encodeNode keccak pairs)

theorem encodeNode_nil : encodeNode keccak [] = encodeString [] := by
  rw [encodeNode]

theorem encodeNode_singleton (pair : Pair) : encodeNode keccak [pair] =
      wrapList (encodeString (hexPrefix pair.1 true) ++ encodeString pair.2) := by
  rw [encodeNode]

theorem encodeNode_shared {pairs : List Pair} (several : 2 ≤ pairs.length)
    (shared : commonPrefix pairs ≠ []) :
    encodeNode keccak pairs = wrapList (encodeString (hexPrefix (commonPrefix pairs) false) ++
      reference keccak (encodeNode keccak (strip (commonPrefix pairs).length pairs))) := by
  match pairs with
  | first :: second :: rest => rw [encodeNode,if_pos shared]

theorem encodeNode_branch {pairs : List Pair} (several : 2 ≤ pairs.length)
    (apart : commonPrefix pairs = []) :
    encodeNode keccak pairs = wrapList ((finRange 16).flatMap (fun nibble =>
      reference keccak (encodeNode keccak (part nibble pairs))) ++ valueItem pairs) := by
  match pairs with
  | first :: second :: rest => rw [encodeNode,if_neg (not_not.mpr apart)]

end Encoding

/-! ### Extensions -/

def prepend (path : List UInt8) (pair : Pair) : Pair := (path ++ pair.1, pair.2)

theorem commonPrefix_prepend (path : List UInt8) (nonempty : pairs ≠ []) :
    commonPrefix (pairs.map (prepend path)) = path ++ commonPrefix pairs := by
  induction pairs with
  | nil => exact absurd rfl nonempty
  | cons first pairs ih =>
    cases pairs with
    | nil => rfl
    | cons second pairs =>
      have rest := ih (cons_ne_nil _ _)
      rw [map_cons] at rest
      rw [map_cons,map_cons,commonPrefix_cons_cons,rest,commonPrefix_cons_cons]
      exact lcp_append path _ _

theorem strip_prepend (path : List UInt8) (pairs : List Pair) :
    strip path.length (pairs.map (prepend path)) = pairs := by
  rw [strip,map_map]
  apply map_id''
  intro pair
  simp [prepend]

/-- Pairs behind a common path are an extension over the pairs, if these have nothing
more in common. -/
theorem encodeNode_prepend (keccak : List UInt8 → Vector UInt8 32) {path : List UInt8}
    (nonempty : path ≠ []) (several : 2 ≤ pairs.length) (apart : commonPrefix pairs = []) :
    encodeNode keccak (pairs.map (prepend path)) = wrapList (encodeString (hexPrefix path false) ++
        reference keccak (encodeNode keccak pairs)) := by
  have some : pairs ≠ [] := by
    intro none
    rw [none] at several
    exact absurd several (by decide)
  have shared : commonPrefix (pairs.map (prepend path)) = path := by
    rw [commonPrefix_prepend path some,apart,append_nil]
  rw [encodeNode_shared keccak (by rwa [length_map]) (by rwa [shared]),shared,strip_prepend]

/-! ### Branches -/

def nibbleOf (index : Fin 16) : UInt8 := UInt8.ofNat index

theorem nibbleOf_toNat (index : Fin 16) : (nibbleOf index).toNat = index := by
  rw [nibbleOf,UInt8.toNat_ofNat']
  omega

def gather (parts : Fin 16 → List Pair) : List Pair :=
  (finRange 16).flatMap fun index => (parts index).map (prepend [nibbleOf index])

theorem part_append (nibble : Fin 16) (front back : List Pair) :
    part nibble (front ++ back) = part nibble front ++ part nibble back := by
  induction front with
  | nil => rfl
  | cons pair front ih =>
    obtain ⟨key,value⟩ := pair
    cases key with
    | nil => rw [cons_append,part,part,ih]
    | cons first rest =>
      rw [cons_append,part,part,ih]
      split <;> rfl

theorem part_prepend (nibble index : Fin 16) (pairs : List Pair) :
    part nibble (pairs.map (prepend [nibbleOf index])) = if index = nibble then pairs else [] := by
  induction pairs with
  | nil => exact (ite_self _).symm
  | cons pair pairs ih =>
    have consEq : prepend [nibbleOf index] pair = (nibbleOf index :: pair.1, pair.2) := rfl
    rw [map_cons,consEq,part,ih,nibbleOf_toNat]
    by_cases same : index = nibble
    · rw [if_pos (congrArg Fin.val same),if_pos same,if_pos same]
    · rw [if_neg (fun valEq => same (Fin.ext valEq)),if_neg same,if_neg same]

theorem flatMap_ite_eq {α β : Type} [DecidableEq α] {values : List α} {value : α}
    (distinct : values.Nodup) (member : value ∈ values) (f : α → List β) :
    values.flatMap (fun other => if other = value then f other else []) = f value := by
  induction values with
  | nil => cases member
  | cons first values ih =>
    obtain ⟨fresh,rest⟩ := nodup_cons.mp distinct
    rw [flatMap_cons]
    rcases mem_cons.mp member with rfl | later
    · have none : values.flatMap (fun other => if other = value then f other else []) = [] := by
        rw [flatMap_eq_nil_iff]
        intro other otherMember
        rw [if_neg]
        rintro rfl
        exact fresh otherMember
      rw [if_pos rfl,none,append_nil]
    · rw [if_neg,nil_append,ih rest later]
      rintro rfl
      exact fresh later

theorem part_gather (nibble : Fin 16) (parts : Fin 16 → List Pair) :
    part nibble (gather parts) = parts nibble := by
  have distribute : ∀ indices : List (Fin 16),
      part nibble (indices.flatMap fun index => (parts index).map (prepend [nibbleOf index])) =
        indices.flatMap fun index => if index = nibble then parts index else [] := by
    intro indices
    induction indices with
    | nil => rfl
    | cons index indices ih => rw [flatMap_cons,flatMap_cons,part_append,part_prepend,ih]
  rw [gather,distribute]
  exact flatMap_ite_eq (nodup_finRange 16) (mem_finRange nibble) parts

variable {parts : Fin 16 → List Pair}

theorem mem_gather : pair ∈ gather parts ↔
      ∃ index, ∃ rest ∈ parts index, pair = prepend [nibbleOf index] rest := by
  simp only [gather,mem_flatMap,mem_finRange,true_and,mem_map]
  constructor
  · rintro ⟨index,rest,member,rfl⟩
    exact ⟨index,rest,member,rfl⟩
  · rintro ⟨index,rest,member,rfl⟩
    exact ⟨index,rest,member,rfl⟩

def Branching (parts : Fin 16 → List Pair) : Prop :=
  ∃ first second, first ≠ second ∧ parts first ≠ [] ∧ parts second ≠ []

theorem Branching.commonPrefix_eq (branching : Branching parts) :
    commonPrefix (gather parts) = [] := by
  obtain ⟨first,second,different,firstSome,secondSome⟩ := branching
  obtain ⟨a,firstMember⟩ := exists_mem_of_ne_nil _ firstSome
  obtain ⟨b,secondMember⟩ := exists_mem_of_ne_nil _ secondSome
  have firstPrefix := commonPrefix_begins (mem_gather.mpr ⟨first,a,firstMember,rfl⟩)
  have secondPrefix := commonPrefix_begins (mem_gather.mpr ⟨second,b,secondMember,rfl⟩)
  cases shared : commonPrefix (gather parts) with
  | nil => rfl
  | cons x rest =>
    rw [shared] at firstPrefix secondPrefix
    have firstHead := (cons_prefix_cons.mp firstPrefix).1
    have secondHead := (cons_prefix_cons.mp secondPrefix).1
    have same := congrArg UInt8.toNat (firstHead.symm.trans secondHead)
    rw [nibbleOf_toNat,nibbleOf_toNat] at same
    exact absurd (Fin.ext same) different

theorem Branching.two_le (branching : Branching parts) : 2 ≤ (gather parts).length := by
  have apart := branching.commonPrefix_eq
  obtain ⟨first,second,different,firstSome,secondSome⟩ := branching
  obtain ⟨a,firstMember⟩ := exists_mem_of_ne_nil _ firstSome
  have member := mem_gather.mpr ⟨first,a,firstMember,rfl⟩
  match pairsEq : gather parts with
  | [] =>
    rw [pairsEq] at member
    cases member
  | [pair] =>
    rw [pairsEq,mem_singleton] at member
    rw [pairsEq,← member] at apart
    cases apart
  | _ :: _ :: rest => exact Nat.le_add_left 2 rest.length

theorem valueItem_gather (parts : Fin 16 → List Pair) :
    valueItem (gather parts) = encodeString [] := by
  have missing : (gather parts).lookup [] = none := by
    rw [lookup_eq_none_iff]
    intro pair member
    obtain ⟨index,rest,_,rfl⟩ := mem_gather.mp member
    rfl
  rw [valueItem,missing]
  rfl

/-- The pairs of two or more children are a branch over the children. -/
theorem encodeNode_gather (keccak : List UInt8 → Vector UInt8 32) (branching : Branching parts) :
    encodeNode keccak (gather parts) = wrapList ((finRange 16).flatMap (fun nibble =>
      reference keccak (encodeNode keccak (parts nibble))) ++ encodeString []) := by
  rw [encodeNode_branch keccak branching.two_le branching.commonPrefix_eq,valueItem_gather]
  simp [part_gather]

end PioplatRelay.Patricia
