import Mathlib.Data.List.Basic
import PioplatRelay.DecimalNumbers

/-!
# Texts of IP addresses

The texts that the package `net` of Go gives to addresses: four decimal numbers for an
IPv4 address, also in its IPv6 form, and groups of hexadecimal digits for other IPv6
addresses, with the longest run of zero groups left out.  Only the latter have colons.
-/

namespace PioplatRelay.IpText

open Decimal List

/-! ### Joined texts -/

section Join

def joinWith (separator : Char) : List (List Char) → List Char
  | [] => []
  | [text] => text
  | text :: next :: texts => text ++ separator :: joinWith separator (next :: texts)

variable {separator : Char}

theorem mem_joinWith {texts : List (List Char)} {c : Char}
    (member : c ∈ joinWith separator texts) : c = separator ∨ ∃ text ∈ texts, c ∈ text := by
  induction texts with
  | nil => cases member
  | cons text texts ih =>
    cases texts with
    | nil => exact Or.inr ⟨text,mem_cons_self,member⟩
    | cons next texts =>
      rw [joinWith,mem_append,mem_cons] at member
      rcases member with first | rfl | later
      · exact Or.inr ⟨text,mem_cons_self,first⟩
      · exact Or.inl rfl
      · rcases ih later with isSeparator | ⟨other,otherMem,inside⟩
        · exact Or.inl isSeparator
        · exact Or.inr ⟨other,mem_cons_of_mem text otherMem,inside⟩

theorem separator_mem_joinWith (first second : List Char) (texts : List (List Char)) :
    separator ∈ joinWith separator (first :: second :: texts) := by
  rw [joinWith]
  exact mem_append_right _ mem_cons_self

theorem append_separator_inj {x y rest others : List Char} (clean : separator ∉ x)
    (otherClean : separator ∉ y) (same : x ++ separator :: rest = y ++ separator :: others) :
    x = y ∧ rest = others := by
  induction x generalizing y with
  | nil =>
    cases y with
    | nil => exact ⟨rfl,(cons.inj same).2⟩
    | cons c y =>
      rw [nil_append,cons_append] at same
      exact absurd (mem_cons.mpr (Or.inl (cons.inj same).1)) otherClean
  | cons c x ih =>
    cases y with
    | nil =>
      rw [nil_append,cons_append] at same
      exact absurd (mem_cons.mpr (Or.inl (cons.inj same).1.symm)) clean
    | cons d y =>
      rw [cons_append,cons_append] at same
      obtain ⟨headEq,tailEq⟩ := cons.inj same
      obtain ⟨restX,restEq⟩ := ih (fun member => clean (mem_cons_of_mem c member))
        (fun member => otherClean (mem_cons_of_mem d member)) tailEq
      exact ⟨by rw [headEq,restX],restEq⟩

theorem joinWith_injective {texts others : List (List Char)}
    (clean : ∀ text ∈ texts, separator ∉ text) (otherClean : ∀ text ∈ others, separator ∉ text)
    (lengths : texts.length = others.length)
    (same : joinWith separator texts = joinWith separator others) : texts = others := by
  induction texts generalizing others with
  | nil => exact (length_eq_zero_iff.mp lengths.symm).symm
  | cons text texts ih =>
    cases others with
    | nil => cases lengths
    | cons other others =>
      rw [forall_mem_cons] at clean otherClean
      have laterLengths : texts.length = others.length := Nat.succ.inj lengths
      cases texts with
      | nil =>
        rw [length_eq_zero_iff.mp laterLengths.symm] at same ⊢
        exact congrArg (fun text => [text]) same
      | cons next texts =>
        cases others with
        | nil => cases laterLengths
        | cons otherNext others =>
          rw [joinWith,joinWith] at same
          obtain ⟨headEq,tailEq⟩ := append_separator_inj clean.1 otherClean.1 same
          rw [headEq,ih clean.2 otherClean.2 laterLengths tailEq]

end Join

/-! ### Addresses -/

def hexDigit (n : Nat) : Char :=
  if n < 10 then Char.ofNat (48 + n) else Char.ofNat (87 + n)

def appendHex (x : Nat) : List Char :=
  (if 0x1000 ≤ x then [hexDigit (x / 0x1000)] else []) ++
    ((if 0x100 ≤ x then [hexDigit (x / 0x100 % 16)] else []) ++
      ((if 0x10 ≤ x then [hexDigit (x / 0x10 % 16)] else []) ++ [hexDigit (x % 16)]))

def hexString (bytes : List UInt8) : List Char :=
  bytes.flatMap fun byte => [hexDigit (byte.toNat / 16), hexDigit (byte.toNat % 16)]

/-- `IP.To4`: the four bytes of an IPv4 address, also in its IPv6 form. -/
def to4 (ip : List UInt8) : Option (List UInt8) :=
  if ip.length = 4 then some ip
  else if ip.length = 16 ∧ ip.take 12 = replicate 10 0 ++ [0xff, 0xff] then some (ip.drop 12)
  else none

def groups : List UInt8 → List Nat
  | high :: low :: ip => (256 * high.toNat + low.toNat) :: groups ip
  | _ => []

def zerosFrom (fields : List Nat) (i : Nat) : Nat := ((fields.drop i).takeWhile (· = 0)).length

/-- The first of the longest runs of at least two zero groups, if there is any. -/
def longestZeros (fields : List Nat) : Nat × Nat :=
  (range fields.length).foldl (fun run i =>
    let zeros := zerosFrom fields i
    if 2 ≤ zeros ∧ run.2 - run.1 < zeros then (i, i + zeros) else run) (255, 255)

def groupsText (fields : List Nat) : List Char :=
  let (zeroStart, zeroEnd) := longestZeros fields
  if zeroStart < fields.length then
    joinWith ':' ((fields.take zeroStart).map appendHex) ++
      ':' :: ':' :: joinWith ':' ((fields.drop zeroEnd).map appendHex)
  else joinWith ':' (fields.map appendHex)

def dotted (ip : List UInt8) : List Char := joinWith '.' (ip.map fun byte => formatNat byte.toNat)

def ipString (ip : List UInt8) : List Char :=
  if ip = [] then ['<', 'n', 'i', 'l', '>']
  else if ip.length ≠ 4 ∧ ip.length ≠ 16 then '?' :: hexString ip
  else
    match to4 ip with
    | some p4 => dotted p4
    | none => groupsText (groups ip)

def joinHostPort (host port : List Char) : List Char :=
  if ':' ∈ host then '[' :: (host ++ (']' :: ':' :: port)) else host ++ ':' :: port

/-- `IP.Equal` on addresses: an IPv4 address is the same in both forms. -/
def SameIp (ip other : List UInt8) : Prop := to4 ip = to4 other ∧ (to4 ip = none → ip = other)

/-! ### Letters of the texts -/

theorem hexDigit_isAlphanum {n : Nat} (digit : n < 16) : (hexDigit n).isAlphanum = true := by
  have all : ∀ n : Fin 16, (hexDigit n).isAlphanum = true := by decide
  exact all ⟨n,digit⟩

variable {c : Char} {ip : List UInt8} {fields : List Nat}

theorem isAlphanum_of_mem_appendHex {x : Nat} (bound : x < 0x10000)
    (member : c ∈ appendHex x) : c.isAlphanum = true := by
  simp only [appendHex,mem_append,mem_singleton] at member
  rcases member with first | second | third | rfl
  · split at first
    · rw [mem_singleton.mp first]
      exact hexDigit_isAlphanum (by omega)
    · cases first
  · split at second
    · rw [mem_singleton.mp second]
      exact hexDigit_isAlphanum (by omega)
    · cases second
  · split at third
    · rw [mem_singleton.mp third]
      exact hexDigit_isAlphanum (by omega)
    · cases third
  · exact hexDigit_isAlphanum (by omega)

theorem isAlphanum_of_mem_hexString {bytes : List UInt8}
    (member : c ∈ hexString bytes) : c.isAlphanum = true := by
  obtain ⟨byte,_,inside⟩ := mem_flatMap.mp member
  have bound := byte.toNat_lt
  simp only [mem_cons,not_mem_nil,or_false] at inside
  rcases inside with rfl | rfl
  · exact hexDigit_isAlphanum (by omega)
  · exact hexDigit_isAlphanum (by omega)

theorem length_hexString (bytes : List UInt8) : (hexString bytes).length = 2 * bytes.length := by
  induction bytes with
  | nil => rfl
  | cons byte bytes ih =>
    rw [hexString,flatMap_cons,length_append,← hexString,ih]
    simp only [length_cons,length_nil]
    omega

theorem isDigit_or_dot_of_mem_dotted (member : c ∈ dotted ip) : c = '.' ∨ c.isDigit = true := by
  rcases mem_joinWith member with isDot | ⟨text,textMem,inside⟩
  · exact Or.inl isDot
  · obtain ⟨byte,_,rfl⟩ := mem_map.mp textMem
    exact Or.inr (isDigit_of_mem_formatNat inside)

theorem colon_notMem_dotted (ip : List UInt8) : ':' ∉ dotted ip := by
  intro member
  rcases isDigit_or_dot_of_mem_dotted member with isDot | isDigit
  · exact absurd isDot (by decide)
  · exact absurd isDigit (by decide)

theorem dot_notMem_formatNat (n : Nat) : '.' ∉ formatNat n := by
  intro member
  exact absurd (isDigit_of_mem_formatNat member) (by decide)

theorem dotted_injective {ip other : List UInt8} (lengths : ip.length = other.length)
    (same : dotted ip = dotted other) : ip = other := by
  have clean (bytes : List UInt8) :
      ∀ text ∈ bytes.map fun byte => formatNat byte.toNat, '.' ∉ text := by
    intro text member
    obtain ⟨byte,_,rfl⟩ := mem_map.mp member
    exact dot_notMem_formatNat _
  have numbers := joinWith_injective (clean ip) (clean other)
    (by rwa [length_map,length_map]) same
  apply map_injective_iff.mpr _ numbers
  intro first second sameText
  exact UInt8.toNat_inj.mp (formatNat_injective sameText)

theorem groups_lt {field : Nat} (member : field ∈ groups ip) : field < 0x10000 := by
  fun_induction groups ip with
  | case1 high low ip ih =>
    rcases mem_cons.mp member with rfl | later
    · have := high.toNat_lt
      have := low.toNat_lt
      omega
    · exact ih later
  | case2 => cases member

theorem length_groups {count : Nat} (lengthEq : ip.length = 2 * count) :
    (groups ip).length = count := by
  induction count generalizing ip with
  | zero =>
    rw [length_eq_zero_iff.mp lengthEq]
    rfl
  | succ count ih =>
    match ip with
    | high :: low :: ip =>
      simp only [length_cons] at lengthEq
      rw [groups,length_cons,ih (by omega)]
    | [_] => simp at lengthEq; omega
    | [] => simp at lengthEq

theorem colon_or_isAlphanum_of_mem_groupsText
    (bounded : ∀ field ∈ fields, field < 0x10000) (member : c ∈ groupsText fields) :
    c = ':' ∨ c.isAlphanum = true := by
  have joined : ∀ some_fields, some_fields ⊆ fields →
      c ∈ joinWith ':' (some_fields.map appendHex) → c = ':' ∨ c.isAlphanum = true := by
    intro some_fields subset inside
    rcases mem_joinWith inside with isColon | ⟨text,textMem,inText⟩
    · exact Or.inl isColon
    · obtain ⟨field,fieldMem,rfl⟩ := mem_map.mp textMem
      exact Or.inr (isAlphanum_of_mem_appendHex (bounded field (subset fieldMem)) inText)
  rw [groupsText] at member
  dsimp only at member
  split at member
  · rw [mem_append,mem_cons,mem_cons] at member
    rcases member with front | isColon | isColon | back
    · exact joined _ (take_subset _ _) front
    · exact Or.inl isColon
    · exact Or.inl isColon
    · exact joined _ (drop_subset _ _) back
  · exact joined fields (Subset.refl _) member

theorem colon_mem_groupsText (several : 2 ≤ fields.length) : ':' ∈ groupsText fields := by
  rw [groupsText]
  dsimp only
  split
  · exact mem_append_right _ mem_cons_self
  · match fields with
    | first :: second :: fields => exact separator_mem_joinWith _ _ _
    | [_] => simp at several
    | [] => simp at several

end PioplatRelay.IpText
