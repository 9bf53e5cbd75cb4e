import PioplatRelay.PatriciaRoots

/-!
# Keys in nibbles and their compact form

The trie works on keys with one byte for each nibble.  The compact form of a path is
written over the nibbles themselves, while they are being read.
-/

namespace PioplatRelay.Trie

open Patricia List Option Nat

def nibblesOf (str : List UInt8) : List UInt8 := str.flatMap fun b => [b / 16, b % 16]

def keybytesToHex (str : List UInt8) : List UInt8 := nibblesOf str ++ [16]

def compactLoop (hexLen : Nat) : Nat → Nat → Nat → List UInt8 → Option (List UInt8)
  | 0, _, _, hex => some hex
  | rounds + 1, bi, ni, hex =>
    if ni < hexLen then do
      let high ← hex[ni]?
      let low ← hex[ni + 1]?
      if bi < hex.length then
        compactLoop hexLen rounds (bi + 1) (ni + 2) (hex.set bi ((high <<< 4) ||| low))
      else none
    else some hex

variable (hex : List UInt8)

/-- `hexToCompactInPlace` once it knows how many nibbles there are: the buffer after it
and the length of the compact key.  An index out of range panics. -/
def compactInPlace (hexLen : Nat) (firstByte : UInt8) :
    Option (List UInt8 × Nat) := do
  let odd := hexLen % 2 = 1
  let firstByte := if odd then firstByte ||| (1 : UInt8) <<< 4 ||| hex.headD 0 else firstByte
  let hex ← compactLoop hexLen hexLen 1 (if odd then 1 else 0) hex
  if hex = [] then none else some (hex.set 0 firstByte, hexLen / 2 + 1)

/-- A terminator is not part of the compact key, but sets a flag in it. -/
def hexToCompactInPlace : Option (List UInt8 × Nat) :=
  if hex.getLast? = some 16 then compactInPlace hex (hex.length - 1) ((1 : UInt8) <<< 5)
  else compactInPlace hex hex.length 0

def hasTerm : Bool := hex.getLast? = some 16

def Nibbles (key : List UInt8) : Prop := ∀ x ∈ key, x.toNat < 16

def compactToHex (compact : List UInt8) : List UInt8 :=
  if compact = [] then compact
  else
    let base := keybytesToHex compact
    let base := if base.headD 0 < 2 then base.dropLast else base
    base.drop (2 - (base.headD 0 &&& 1)).toNat

/-- Pairs of nibbles are written over the bytes.  An index out of range panics. -/
def decodeNibbles : List UInt8 → List UInt8 → Option (List UInt8)
  | [], bytes => some bytes
  | high :: low :: nibbles, _ :: bytes =>
    (decodeNibbles nibbles bytes).map ((high <<< 4 ||| low) :: ·)
  | _, _ => none

def hexToCompact : Option (List UInt8) :=
  let terminator : UInt8 := if hasTerm hex then 1 else 0
  let hex := if hasTerm hex then hex.dropLast else hex
  let odd := hex.length % 2 = 1
  let first := terminator <<< 5
  let first := if odd then first ||| (1 : UInt8) <<< 4 ||| hex.headD 0 else first
  (decodeNibbles (if odd then hex.tail else hex) (.replicate (hex.length / 2) 0)).map (first :: ·)

theorem nibbles_nibblesOf (str : List UInt8) : Nibbles (nibblesOf str) := by
  intro x member
  obtain ⟨b,_,inPair⟩ := mem_flatMap.mp member
  have bound := b.toNat_lt
  rcases mem_cons.mp inPair with rfl | inRest
  · rw [UInt8.toNat_div]
    change b.toNat / 16 < 16
    omega
  · rw [mem_singleton.mp inRest,UInt8.toNat_mod]
    change b.toNat % 16 < 16
    omega

variable {front back : List UInt8} {hex rest tail : List UInt8} {nibbles : List UInt8}

theorem Nibbles.of_append_right (nibbles : Nibbles (front ++ back)) : Nibbles back :=
  fun x member => nibbles x (mem_append_right front member)

theorem Nibbles.of_append_left (nibbles : Nibbles (front ++ back)) : Nibbles front :=
  fun x member => nibbles x (mem_append_left back member)

/-! ### The compact form -/

theorem shiftLeft_or_eq {high low : UInt8} (highNibble : high.toNat < 16)
    (lowNibble : low.toNat < 16) : (high <<< 4) ||| low = high * 16 + low := by
  apply UInt8.toNat_inj.mp
  have shifted : (high <<< 4).toNat = high.toNat <<< 4 := by
    rw [UInt8.toNat_shiftLeft,shiftLeft_eq,shiftLeft_eq]
    change high.toNat * 2 ^ 4 % 256 = high.toNat * 2 ^ 4
    omega
  rw [UInt8.toNat_or,shifted,← shiftLeft_add_eq_or_of_lt lowNibble,shiftLeft_eq,
    UInt8.toNat_add,UInt8.toNat_mul]
  change _ = (high.toNat * 16 % 256 + low.toNat) % 256
  omega

theorem flag_or_eq {flag x : UInt8} (flagEq : flag = 0 ∨ flag = 2) (nibble : x.toNat < 16) :
    (flag * 16 : UInt8) ||| (1 : UInt8) <<< 4 ||| x = (flag + 1) * 16 + x := by
  have shape : (flag * 16 : UInt8) ||| (1 : UInt8) <<< 4 = (flag + 1) <<< 4 := by
    rcases flagEq with rfl | rfl <;> rfl
  rw [shape]
  apply shiftLeft_or_eq _ nibble
  rcases flagEq with rfl | rfl <;> decide

/-- The loop never writes behind the nibbles it still has to read, so it packs the
nibbles the buffer had before it. -/
theorem compactLoop_eq {hexLen rounds bi ni : Nat}
    (restEq : hex.drop ni = rest ++ tail) (lengthEq : ni + rest.length = hexLen)
    (even : rest.length % 2 = 0) (nibbles : Nibbles rest) (behind : bi ≤ ni + 1)
    (enough : rest.length ≤ rounds) : compactLoop hexLen rounds bi ni hex =
      some (hex.take bi ++ packNibbles rest ++ hex.drop (bi + rest.length / 2)) := by
  induction rounds generalizing bi ni hex rest with
  | zero =>
    have none : rest = [] := length_eq_zero_iff.mp (le_zero.mp enough)
    subst none
    simp [compactLoop,packNibbles]
  | succ rounds ih =>
    match rest with
    | [] =>
      rw [compactLoop,if_neg]
      · simp [packNibbles]
      · simp only [length_nil] at lengthEq
        omega
    | [single] => simp at even
    | high :: low :: rest =>
      simp only [length_cons] at lengthEq even enough
      have highAt : hex[ni]? = some high := by
        rw [← head?_drop,restEq]
        rfl
      have lowAt : hex[ni + 1]? = some low := by
        rw [← head?_drop,← drop_drop,restEq]
        rfl
      have inside : bi < hex.length := by
        have bound := (List.getElem?_eq_some_iff.mp lowAt).1
        omega
      have packed : (high <<< 4) ||| low = high * 16 + low :=
        shiftLeft_or_eq (nibbles high (by simp)) (nibbles low (by simp))
      have restDrop : (hex.set bi (high * 16 + low)).drop (ni + 2) = rest ++ tail := by
        rw [drop_set_of_lt (by omega),← drop_drop,restEq]
        rfl
      have restNibbles : Nibbles rest := fun x member => nibbles x (by simp [member])
      have countEq : bi + (high :: low :: rest).length / 2 = bi + 1 + rest.length / 2 := by
        simp only [length_cons]
        omega
      simp only [compactLoop,if_pos (show ni < hexLen by omega),highAt,lowAt,bind_eq_bind,
        bind_some,if_pos inside,packed,ih restDrop (by omega) (by omega) restNibbles
          (show bi + 1 ≤ ni + 2 + 1 by omega) (by omega)]
      rw [countEq,drop_set_of_lt (by omega),take_add_one,getElem?_set_self inside,
        take_set_of_le (le_refl bi),packNibbles,append_assoc,append_assoc,append_assoc]
      rfl

/-- The first byte replaces the one that the loop leaves in front. -/
theorem compactLoop_set {hexLen ni : Nat} (nonempty : hex ≠ [])
    (restEq : hex.drop ni = rest ++ tail) (lengthEq : ni + rest.length = hexLen)
    (even : rest.length % 2 = 0) (nibbles : Nibbles rest) (first : UInt8) :
    ∃ out, compactLoop hexLen hexLen 1 ni hex = some out ∧ out ≠ [] ∧
      out.set 0 first = first :: packNibbles rest ++ hex.drop (rest.length / 2 + 1) := by
  refine ⟨_,compactLoop_eq restEq lengthEq even nibbles (le_add_left 1 ni)
    (show rest.length ≤ hexLen by omega),?_,?_⟩
  · simp [nonempty]
  · obtain ⟨old,more,rfl⟩ := exists_cons_of_ne_nil nonempty
    rw [add_comm 1]
    rfl

theorem compactInPlace_eq {nibbles tail : List UInt8} (nonempty : nibbles ++ tail ≠ [])
    (inRange : Nibbles nibbles) (leaf : Bool) :
    compactInPlace (nibbles ++ tail) nibbles.length ((if leaf then 2 else 0) * 16) =
      some (hexPrefix nibbles leaf ++ (nibbles ++ tail).drop (nibbles.length / 2 + 1),
        nibbles.length / 2 + 1) := by
  by_cases odd : nibbles.length % 2 = 1
  · cases nibbles with
    | nil => simp at odd
    | cons nibble rest =>
      have restEven : rest.length % 2 = 0 := by
        rw [length_cons] at odd
        omega
      have halfEq : rest.length / 2 = (nibble :: rest).length / 2 := by
        rw [length_cons]
        omega
      obtain ⟨out,loopEq,outSome,outSet⟩ := compactLoop_set nonempty
        (show (nibble :: rest ++ tail).drop 1 = rest ++ tail from rfl)
        (show 1 + rest.length = (nibble :: rest).length from add_comm 1 _) restEven
        (fun x member => inRange x (mem_cons_of_mem nibble member))
        (((if leaf then 2 else 0) + 1) * 16 + nibble)
      rw [halfEq] at outSet
      have notEven : ¬ (nibble :: rest).length % 2 = 0 := by omega
      have head : (nibble :: rest ++ tail).headD 0 = nibble := rfl
      simp only [compactInPlace,if_pos odd,loopEq,bind_eq_bind,bind_some,if_neg outSome,
        head,flag_or_eq (ite_eq_or_eq _ 2 0).symm (inRange nibble mem_cons_self)]
      rw [outSet,hexPrefix,if_neg notEven]
      rfl
  · have even : nibbles.length % 2 = 0 := by omega
    obtain ⟨out,loopEq,outSome,outSet⟩ := compactLoop_set nonempty drop_zero
      (zero_add _) even inRange ((if leaf then 2 else 0) * 16)
    simp only [compactInPlace,if_neg odd,loopEq,bind_eq_bind,bind_some,if_neg outSome]
    rw [outSet,hexPrefix,if_pos even]

def path (nibbles : List UInt8) (leaf : Bool) : List UInt8 := nibbles ++ if leaf then [16] else []

theorem hasTerm_path (inRange : Nibbles nibbles) (leaf : Bool) :
    hasTerm (path nibbles leaf) = leaf := by
  cases leaf with
  | true => simp [hasTerm,path]
  | false =>
    simp only [hasTerm,path,Bool.false_eq_true,if_false,append_nil,decide_eq_false_iff_not]
    intro last
    exact absurd (inRange 16 (mem_of_getLast? last)) (by decide)

/-- The buffer begins with the compact form and is otherwise as before. -/
theorem hexToCompactInPlace_eq {leaf : Bool} (nonempty : path nibbles leaf ≠ [])
    (inRange : Nibbles nibbles) : hexToCompactInPlace (path nibbles leaf) =
      some (hexPrefix nibbles leaf ++ (path nibbles leaf).drop (nibbles.length / 2 + 1),
        nibbles.length / 2 + 1) := by
  have term := hasTerm_path inRange leaf
  rw [hasTerm] at term
  have compact := compactInPlace_eq nonempty inRange leaf
  rw [hexToCompactInPlace]
  cases leaf with
  | true =>
    rw [if_pos (of_decide_eq_true term),path,length_append]
    exact compact
  | false =>
    rw [if_neg (of_decide_eq_false term)]
    simp only [path,Bool.false_eq_true,if_false,append_nil] at compact ⊢
    exact compact

/-! ### The copying versions -/

theorem length_packNibbles (rest : List UInt8) : (packNibbles rest).length = rest.length / 2 := by
  induction rest using packNibbles.induct with
  | case1 high low rest ih =>
    simp only [packNibbles,length_cons,ih]
    omega
  | case2 rest short =>
    match rest with
    | [] | [_] => simp [packNibbles]
    | high :: low :: rest => exact absurd rfl (short high low rest)

theorem decodeNibbles_eq (inRange : Nibbles rest) (even : rest.length % 2 = 0)
    {bytes : List UInt8} (room : bytes.length = rest.length / 2) :
    decodeNibbles rest bytes = some (packNibbles rest) := by
  induction rest using packNibbles.induct generalizing bytes with
  | case1 high low rest ih =>
    simp only [length_cons] at even room
    cases bytes with
    | nil =>
      rw [length_nil] at room
      omega
    | cons byte bytes =>
      rw [length_cons] at room
      rw [decodeNibbles,ih (fun x member => inRange x (by simp [member])) (by omega) (by omega),
        shiftLeft_or_eq (inRange high (by simp)) (inRange low (by simp))]
      rfl
  | case2 rest short =>
    match rest with
    | [] => simpa [decodeNibbles,packNibbles] using room
    | [_] => simp at even
    | high :: low :: rest => exact absurd rfl (short high low rest)

theorem hexToCompact_eq (inRange : Nibbles nibbles) (leaf : Bool) :
    hexToCompact (path nibbles leaf) = some (hexPrefix nibbles leaf) := by
  have body : (if leaf then (path nibbles leaf).dropLast else path nibbles leaf) = nibbles := by
    cases leaf <;> simp [path]
  have flag : (if leaf then 1 else 0 : UInt8) <<< 5 = (if leaf then 2 else 0) * 16 := by
    cases leaf <;> rfl
  simp only [hexToCompact,hasTerm_path inRange,body,flag]
  by_cases odd : nibbles.length % 2 = 1
  · cases nibbles with
    | nil => simp at odd
    | cons nibble rest =>
      have notEven : ¬ (nibble :: rest).length % 2 = 0 := by omega
      have restRange : Nibbles rest := fun x member => inRange x (mem_cons_of_mem _ member)
      rw [length_cons] at odd
      simp only [length_cons,if_pos odd,tail_cons,headD_cons]
      rw [decodeNibbles_eq restRange (by omega) (by rw [length_replicate]; omega),hexPrefix,
        if_neg notEven,flag_or_eq (ite_eq_or_eq _ 2 0).symm (inRange nibble mem_cons_self)]
      rfl
  · have even : nibbles.length % 2 = 0 := by omega
    simp only [if_neg odd]
    rw [decodeNibbles_eq inRange even length_replicate,hexPrefix,if_pos even]
    rfl

theorem length_hexPrefix (nibbles : List UInt8) (leaf : Bool) :
    (hexPrefix nibbles leaf).length = nibbles.length / 2 + 1 := by
  rw [hexPrefix]
  split
  · rw [length_cons,length_packNibbles]
  · rw [length_cons,length_packNibbles,length_tail]
    omega

theorem div_mod_of_nibbles {flag x : UInt8} (flagNibble : flag.toNat < 16) (nibble : x.toNat < 16) :
    (flag * 16 + x) / 16 = flag ∧ (flag * 16 + x) % 16 = x := by
  have value : (flag * 16 + x).toNat = flag.toNat * 16 + x.toNat := by
    rw [UInt8.toNat_add,UInt8.toNat_mul]
    change (flag.toNat * 16 % 256 + x.toNat) % 256 = _
    omega
  constructor <;> apply UInt8.toNat_inj.mp
  · rw [UInt8.toNat_div,value]
    change (flag.toNat * 16 + x.toNat) / 16 = _
    omega
  · rw [UInt8.toNat_mod,value]
    change (flag.toNat * 16 + x.toNat) % 16 = _
    omega

theorem nibblesOf_packNibbles (inRange : Nibbles rest) (even : rest.length % 2 = 0) :
    nibblesOf (packNibbles rest) = rest := by
  induction rest using packNibbles.induct with
  | case1 high low rest ih =>
    have both := div_mod_of_nibbles (inRange high (by simp)) (inRange low (by simp))
    rw [packNibbles,nibblesOf,flatMap_cons,both.1,both.2]
    change [high,low] ++ nibblesOf (packNibbles rest) = _
    simp only [length_cons] at even
    rw [ih (fun x member => inRange x (by simp [member])) (by omega)]
    rfl
  | case2 rest short =>
    match rest with
    | [] => simp [nibblesOf,packNibbles]
    | [_] => simp at even
    | high :: low :: rest => exact absurd rfl (short high low rest)

theorem compactToHex_cons {flag x : UInt8} (flagNibble : flag < 4) (nibble : x.toNat < 16)
    (inRange : Nibbles rest) (even : rest.length % 2 = 0) :
    compactToHex ((flag * 16 + x) :: packNibbles rest) =
      (flag :: x :: path rest (decide (2 ≤ flag))).drop (2 - (flag &&& 1)).toNat := by
  have flagLt : flag.toNat < 4 := flagNibble
  have both := div_mod_of_nibbles (lt_trans flagLt (by decide)) nibble
  have base : keybytesToHex ((flag * 16 + x) :: packNibbles rest) =
      flag :: x :: (rest ++ [16]) := by
    rw [keybytesToHex,nibblesOf,flatMap_cons,both.1,both.2]
    change [flag,x] ++ nibblesOf (packNibbles rest) ++ [16] = _
    rw [nibblesOf_packNibbles inRange even]
    rfl
  rw [compactToHex,if_neg (cons_ne_nil _ _),base]
  by_cases small : flag < 2
  · simp [small,path,dropLast_cons_of_ne_nil,UInt8.not_le.mpr small]
  · simp [small,path,UInt8.not_lt.mp small]

theorem compactToHex_hexPrefix (inRange : Nibbles nibbles) (leaf : Bool) :
    compactToHex (hexPrefix nibbles leaf) = path nibbles leaf := by
  rw [hexPrefix]
  split
  · rename_i even
    have small : (if leaf then 2 else 0 : UInt8) < 4 := by cases leaf <;> decide
    have whole := compactToHex_cons small (show (0 : UInt8).toNat < 16 by decide) inRange even
    rw [UInt8.add_zero] at whole
    rw [whole]
    cases leaf <;> rfl
  · rename_i odd
    cases nibbles with
    | nil => simp at odd
    | cons nibble rest =>
      simp only [length_cons] at odd
      rw [headD_cons,tail_cons,compactToHex_cons (by cases leaf <;> decide)
        (inRange nibble (by simp)) (fun x member => inRange x (by simp [member])) (by omega)]
      cases leaf <;> rfl

/-- Rounds of the loop that have been made leave the nibbles that are still to be
read as they were. -/
theorem compactLoop_unread {hexLen rounds bi ni : Nat} {out : List UInt8} (behind : bi ≤ ni + 1)
    (ran : compactLoop hexLen rounds bi ni hex = some out) :
    out.drop (ni + 2 * rounds) = hex.drop (ni + 2 * rounds) := by
  induction rounds generalizing bi ni hex with
  | zero =>
    cases ran
    rfl
  | succ rounds ih =>
    rw [compactLoop] at ran
    split at ran
    · simp only [bind_eq_bind,bind_eq_some_iff] at ran
      obtain ⟨high,-,low,-,ran⟩ := ran
      obtain ⟨inside,ran⟩ := ite_none_right_eq_some.mp ran
      have later := ih (show bi + 1 ≤ ni + 2 + 1 by omega) ran
      rw [show ni + 2 * (rounds + 1) = ni + 2 + 2 * rounds by omega,later,drop_set_of_lt (by omega)]
    · cases ran
      rfl

/-- Working in place gives the same key as copying, over a prefix of the buffer and
without writing what is still to be read, and the path can be read back from it. -/
theorem compactKeys_agree (nibbles : List UInt8) (inRange : Nibbles nibbles) (leaf : Bool) :
    ∃ compact, hexToCompact (path nibbles leaf) = some compact ∧
      compactToHex compact = path nibbles leaf ∧
      (path nibbles leaf ≠ [] → hexToCompactInPlace (path nibbles leaf) =
        some (compact ++ (path nibbles leaf).drop compact.length, compact.length)) ∧
      ∀ rounds out, compactLoop nibbles.length rounds 1 (nibbles.length % 2) (path nibbles leaf) =
          some out → out.drop (nibbles.length % 2 + 2 * rounds) =
            (path nibbles leaf).drop (nibbles.length % 2 + 2 * rounds) := by
  refine ⟨hexPrefix nibbles leaf,hexToCompact_eq inRange leaf,
    compactToHex_hexPrefix inRange leaf,?_,
    fun rounds out => compactLoop_unread (le_add_left 1 _)⟩
  intro nonempty
  rw [hexToCompactInPlace_eq nonempty inRange,length_hexPrefix]

theorem compactKeys_agree_odd_leaf : ∃ compact, hexToCompact [1, 2, 3, 16] = some compact ∧
    hexToCompactInPlace [1, 2, 3, 16] = some (compact ++ [3, 16], 2) := by
  obtain ⟨compact,compactEq,-,inPlace,-⟩ :=
    compactKeys_agree [1,2,3] (by simp [Nibbles]) true
  cases compactEq
  exact ⟨_,rfl,inPlace (cons_ne_nil _ _)⟩

end PioplatRelay.Trie
