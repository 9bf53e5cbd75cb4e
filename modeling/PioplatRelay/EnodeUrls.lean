import PioplatRelay.IpTexts
import PioplatRelay.Peri

/-!
# Peers by the address in their URL

Peri takes the address of a peer from its URL: what stands behind the key, up to the first
colon.  The text of an IPv6 address stands in brackets and has colons itself, so only its
beginning is taken, and the URL of a node without an address ends before the place where
the address is sought.
-/

namespace PioplatRelay

open Decimal IpText List Option

/-! ### URLs -/

inductive UrlPart
  | user
  | host
  deriving DecidableEq, Repr

def shouldEscape (part : UrlPart) (c : Char) : Bool :=
  if c.isAlphanum then false
  else if part = .host ∧ c ∈ ['!', '$', '&', '\'', '(', ')', '*', '+', ',', ';', '=', ':', '[',
      ']', '<', '>', '"'] then
    false
  else if c ∈ ['-', '_', '.', '~'] then false
  else if part = .user ∧ c ∈ ['$', '&', '+', ',', ';', '='] then false
  else true

/-- `escape`, for texts of single bytes. -/
def escape (part : UrlPart) (text : List Char) : List Char :=
  text.flatMap fun c =>
    if shouldEscape part c then '%' :: (hexString [UInt8.ofNat c.toNat]).map Char.toUpper else [c]

def scheme : List Char := ['e', 'n', 'o', 'd', 'e', ':', '/', '/']

/-- A node record with a secp256k1 key, as far as its URL goes.  The values under the keys
"ip" and "ip6" are byte strings of any length. -/
structure NodeRecord where
  key : List UInt8
  key_length : key.length = 64
  ip4 : Option (List UInt8)
  ip6 : Option (List UInt8)
  tcp : Option UInt16
  udp : Option UInt16

namespace NodeRecord

def ip (n : NodeRecord) : Option (List UInt8) :=
  match n.ip4.filter (·.length = 4) with
  | some ip4 => some ip4
  | none => n.ip6.filter (·.length = 16)

def tcpAddr (n : NodeRecord) (ip : List UInt8) : List Char :=
  joinHostPort (if ip = [] then [] else ipString ip) (formatNat (n.tcp.getD 0).toNat)

def query (n : NodeRecord) : List Char :=
  if n.udp.getD 0 = n.tcp.getD 0 then []
  else '?' :: 'd' :: 'i' :: 's' :: 'c' :: 'p' :: 'o' :: 'r' :: 't' :: '=' ::
    formatNat (n.udp.getD 0).toNat

def urlv4 (n : NodeRecord) : String :=
  String.ofList (scheme ++
    match n.ip with
    | none => escape .host (hexString n.key)
    | some ip => escape .user (hexString n.key) ++ ('@' :: escape .host (n.tcpAddr ip)) ++ n.query)

end NodeRecord

/-! ### Nothing in these URLs is escaped -/

theorem escape_eq_self {part : UrlPart} {text : List Char}
    (plain : ∀ c ∈ text, shouldEscape part c = false) : escape part text = text := by
  induction text with
  | nil => rfl
  | cons c text ih =>
    rw [List.forall_mem_cons] at plain
    rw [escape,flatMap_cons,plain.1,if_neg (by decide),← escape,ih plain.2]
    rfl

theorem shouldEscape_of_isAlphanum (part : UrlPart) {c : Char} (letter : c.isAlphanum = true) :
    shouldEscape part c = false := by
  rw [shouldEscape,if_pos letter]

theorem escape_hexString (part : UrlPart) (bytes : List UInt8) :
    escape part (hexString bytes) = hexString bytes := by
  apply escape_eq_self
  intro c member
  exact shouldEscape_of_isAlphanum part (isAlphanum_of_mem_hexString member)

theorem isAlphanum_of_isDigit {c : Char} (digit : c.isDigit = true) : c.isAlphanum = true := by
  rw [Char.isAlphanum,digit,Bool.or_true]

def HostLetter (c : Char) : Prop := c.isAlphanum = true ∨ c ∈ ['.', ':', '[', ']']

theorem shouldEscape_of_hostLetter {c : Char} (letter : HostLetter c) :
    shouldEscape .host c = false := by
  rcases letter with alphanum | special
  · exact shouldEscape_of_isAlphanum .host alphanum
  · simp only [List.mem_cons,not_mem_nil,or_false] at special
    rcases special with rfl | rfl | rfl | rfl <;> decide

theorem hostLetter_of_mem_ipString {ip : List UInt8} (lengthEq : ip.length = 4 ∨ ip.length = 16)
    {c : Char} (member : c ∈ ipString ip) : HostLetter c := by
  have some_bytes : ip ≠ [] := by
    rintro rfl
    rcases lengthEq with none | none <;> cases none
  rw [ipString,if_neg some_bytes,if_neg (by omega)] at member
  split at member
  · rcases isDigit_or_dot_of_mem_dotted member with rfl | digit
    · exact Or.inr (by decide)
    · exact Or.inl (isAlphanum_of_isDigit digit)
  · rcases colon_or_isAlphanum_of_mem_groupsText (fun _ => groups_lt) member with rfl | letter
    · exact Or.inr (by decide)
    · exact Or.inl letter

theorem hostLetter_of_mem_joinHostPort {host port : List Char}
    (hostLetters : ∀ c ∈ host, HostLetter c) (portLetters : ∀ c ∈ port, HostLetter c) {c : Char}
    (member : c ∈ joinHostPort host port) : HostLetter c := by
  have colon : HostLetter ':' := Or.inr (by decide)
  rw [joinHostPort] at member
  split at member
  · simp only [List.mem_cons,mem_append] at member
    rcases member with rfl | inHost | rfl | rfl | inPort
    · exact Or.inr (by decide)
    · exact hostLetters c inHost
    · exact Or.inr (by decide)
    · exact colon
    · exact portLetters c inPort
  · simp only [List.mem_cons,mem_append] at member
    rcases member with inHost | rfl | inPort
    · exact hostLetters c inHost
    · exact colon
    · exact portLetters c inPort

namespace NodeRecord

variable {n : NodeRecord} {ip : List UInt8}

theorem length_ip (found : n.ip = some ip) : ip.length = 4 ∨ ip.length = 16 := by
  rw [NodeRecord.ip] at found
  split at found
  · rename_i loaded
    cases found
    exact Or.inl (of_decide_eq_true (filter_eq_some_iff.mp loaded).2)
  · exact Or.inr (of_decide_eq_true (filter_eq_some_iff.mp found).2)

theorem tcpAddr_eq (found : n.ip = some ip) :
    n.tcpAddr ip = joinHostPort (ipString ip) (formatNat (n.tcp.getD 0).toNat) := by
  have some_bytes : ip ≠ [] := by
    rintro rfl
    rcases length_ip found with none | none <;> cases none
  rw [tcpAddr,if_neg some_bytes]

theorem urlv4_of_complete (found : n.ip = some ip) :
    n.urlv4 = String.ofList (scheme ++ (hexString n.key ++ ['@']) ++
      (n.tcpAddr ip ++ n.query)) := by
  have letters : ∀ c ∈ n.tcpAddr ip, shouldEscape .host c = false := by
    intro c member
    rw [tcpAddr_eq found] at member
    apply shouldEscape_of_hostLetter
    apply hostLetter_of_mem_joinHostPort _ _ member
    · intro letter
      exact hostLetter_of_mem_ipString (length_ip found)
    · intro letter inPort
      exact Or.inl (isAlphanum_of_isDigit (isDigit_of_mem_formatNat inPort))
  rw [urlv4,found]
  dsimp only
  rw [escape_hexString,escape_eq_self letters]
  simp

theorem urlv4_of_incomplete (missing : n.ip = none) :
    n.urlv4 = String.ofList (scheme ++ hexString n.key) := by
  rw [urlv4,missing]
  dsimp only
  rw [escape_hexString]

/-! ### The address in the URL -/

theorem extract_of_incomplete (missing : n.ip = none) : extractIPFromEnode n.urlv4 = none := by
  have short : n.urlv4.length < enodeSplitIndex := by
    rw [urlv4_of_incomplete missing,String.length_ofList,length_append,length_hexString,
      n.key_length]
    decide
  rw [extractIPFromEnode,if_pos short]

theorem extract_of_complete (found : n.ip = some ip) : extractIPFromEnode n.urlv4 =
      some (String.ofList ((n.tcpAddr ip ++ n.query).takeWhile (· ≠ ':'))) := by
  have keyLength : (scheme ++ (hexString n.key ++ ['@'])).length = enodeSplitIndex := by
    rw [length_append,length_append,length_hexString,n.key_length]
    rfl
  rw [urlv4_of_complete found,extractIPFromEnode,if_neg,String.toList_ofList,drop_left' keyLength]
  rw [String.length_ofList,length_append,keyLength]
  omega

theorem extract_of_to4 (found : n.ip = some ip) {p4 : List UInt8} (isIPv4 : to4 ip = some p4) :
    extractIPFromEnode n.urlv4 = some (String.ofList (dotted p4)) ∧ ipString ip = dotted p4 := by
  have lengths := length_ip found
  have textEq : ipString ip = dotted p4 := by
    have some_bytes : ip ≠ [] := by
      rintro rfl
      rcases lengths with none | none <;> cases none
    rw [ipString,if_neg some_bytes,if_neg (by omega),isIPv4]
  refine ⟨?_,textEq⟩
  rw [extract_of_complete found,tcpAddr_eq found,textEq,joinHostPort,
    if_neg (colon_notMem_dotted p4),append_assoc,takeWhile_append_of_pos]
  · rw [cons_append,takeWhile_cons_of_neg (by decide),append_nil]
  · intro c member
    apply decide_eq_true
    rintro rfl
    exact colon_notMem_dotted p4 member

theorem extract_of_not_to4 (found : n.ip = some ip) (notIPv4 : to4 ip = none) :
    extractIPFromEnode n.urlv4 ≠ some (String.ofList (ipString ip)) := by
  have sixteen : ip.length = 16 := by
    rcases length_ip found with four | sixteen
    · rw [to4, if_pos four] at notIPv4
      cases notIPv4
    · exact sixteen
  have some_bytes : ip ≠ [] := by
    rintro rfl
    cases sixteen
  have textEq : ipString ip = groupsText (groups ip) := by
    rw [ipString, if_neg some_bytes, if_neg (by omega), notIPv4]
  have colon : ':' ∈ ipString ip := by
    rw [textEq]
    apply colon_mem_groupsText
    rw [@length_groups ip 8 sixteen]
    decide
  have noBracket : '[' ∉ ipString ip := by
    rw [textEq]
    intro member
    rcases colon_or_isAlphanum_of_mem_groupsText (fun _ => groups_lt) member with same | letter
    · exact absurd same (by decide)
    · exact absurd letter (by decide)
  rw [extract_of_complete found, tcpAddr_eq found, joinHostPort, if_pos colon, cons_append,
    takeWhile_cons_of_pos (by decide)]
  intro same
  apply noBracket
  rw [← String.ofList_injective (some_inj.mp same)]
  exact List.mem_cons_self

end NodeRecord

def HasIPv4 (n : NodeRecord) : Prop := ∃ ip, n.ip = some ip ∧ (to4 ip).isSome

/-- The nodes of a set are known by their addresses: the address of each is found in its URL,
and two of them have the same if and only if their addresses are the same. -/
structure Identified (nodes : Set NodeRecord) : Prop where
  found : ∀ n ∈ nodes, ∃ key, extractIPFromEnode n.urlv4 = some key
  textual : ∀ n ∈ nodes, ∀ ip, n.ip = some ip →
    extractIPFromEnode n.urlv4 = some (String.ofList (ipString ip))
  shared_iff : ∀ n ∈ nodes, ∀ m ∈ nodes, ∀ ip other, n.ip = some ip → m.ip = some other →
    (extractIPFromEnode n.urlv4 = extractIPFromEnode m.urlv4 ↔ SameIp ip other)

theorem length_to4 {ip p4 : List UInt8} (isIPv4 : to4 ip = some p4) : p4.length = 4 := by
  rw [to4] at isIPv4
  split at isIPv4
  · rename_i four
    cases isIPv4
    exact four
  · split at isIPv4
    · rename_i mapped
      cases isIPv4
      rw [length_drop,mapped.1]
    · cases isIPv4

theorem shared_iff_of_to4 {n m : NodeRecord} {ip other p4 q4 : List UInt8} (found : n.ip = some ip)
    (otherFound : m.ip = some other) (isIPv4 : to4 ip = some p4) (otherIPv4 : to4 other = some q4) :
    extractIPFromEnode n.urlv4 = extractIPFromEnode m.urlv4 ↔ SameIp ip other := by
  rw [(n.extract_of_to4 found isIPv4).1,(m.extract_of_to4 otherFound otherIPv4).1,SameIp,isIPv4,
    otherIPv4,some_inj,some_inj]
  constructor
  · intro same
    refine ⟨?_,fun none => by cases none⟩
    apply dotted_injective
    · rw [length_to4 isIPv4,length_to4 otherIPv4]
    · exact String.ofList_injective same
  · rintro ⟨rfl,-⟩
    rfl

/-- The nodes of a set are known by their addresses exactly if all of them have IPv4
addresses. -/
theorem identified_iff (nodes : Set NodeRecord) : Identified nodes ↔ ∀ n ∈ nodes, HasIPv4 n := by
  constructor
  · intro identified n member
    obtain ⟨key,keyEq⟩ := identified.found n member
    cases found : n.ip with
    | none =>
      rw [n.extract_of_incomplete found] at keyEq
      cases keyEq
    | some ip =>
      refine ⟨ip,found,?_⟩
      by_contra notIPv4
      rw [not_isSome_iff_eq_none] at notIPv4
      exact n.extract_of_not_to4 found notIPv4 (identified.textual n member ip found)
  · intro haveIPv4
    constructor
    · intro n member
      obtain ⟨ip,found,isIPv4⟩ := haveIPv4 n member
      obtain ⟨p4,p4Eq⟩ := isSome_iff_exists.mp isIPv4
      exact ⟨_,(n.extract_of_to4 found p4Eq).1⟩
    · intro n member ip found
      obtain ⟨known,knownFound,isIPv4⟩ := haveIPv4 n member
      rw [knownFound,some_inj] at found
      obtain ⟨p4,p4Eq⟩ := isSome_iff_exists.mp isIPv4
      obtain ⟨keyEq,textEq⟩ := n.extract_of_to4 knownFound p4Eq
      rw [← found,keyEq,textEq]
    · intro n nMember m mMember ip other found otherFound
      obtain ⟨nIp,nFound,nIPv4⟩ := haveIPv4 n nMember
      obtain ⟨mIp,mFound,mIPv4⟩ := haveIPv4 m mMember
      obtain ⟨p4,p4Eq⟩ := isSome_iff_exists.mp nIPv4
      obtain ⟨q4,q4Eq⟩ := isSome_iff_exists.mp mIPv4
      have ipEq : nIp = ip := some_inj.mp (nFound.symm.trans found)
      have otherEq : mIp = other := some_inj.mp (mFound.symm.trans otherFound)
      rw [ipEq] at p4Eq
      rw [otherEq] at q4Eq
      exact shared_iff_of_to4 found otherFound p4Eq q4Eq

def zeroKeyNode (ip4 ip6 : Option (List UInt8)) : NodeRecord where
  key := List.replicate 64 0
  key_length := List.length_replicate
  ip4 := ip4
  ip6 := ip6
  tcp := some 30303
  udp := some 30303

def documentationIp (last : UInt8) : List UInt8 :=
  [0x20, 0x01, 0x0d, 0xb8, 0, 0, 0, 0, 0, 0, 0, 0, 0, 0, 0, last]

/-- Without an address the extraction panics, and two nodes with different IPv6 addresses
have the same key. -/
theorem incomplete_panics_and_ipv6_shared :
    extractIPFromEnode (zeroKeyNode none none).urlv4 = none ∧
      ipString (documentationIp 1) = "2001:db8::1".toList ∧
      extractIPFromEnode (zeroKeyNode none (some (documentationIp 1))).urlv4 = some "[2001" ∧
      extractIPFromEnode (zeroKeyNode none (some (documentationIp 2))).urlv4 = some "[2001" := by
  refine ⟨NodeRecord.extract_of_incomplete rfl,by decide,?_,?_⟩
  · rw [NodeRecord.extract_of_complete (show _ = some (documentationIp 1) from rfl)]
    decide +kernel
  · rw [NodeRecord.extract_of_complete (show _ = some (documentationIp 2) from rfl)]
    decide +kernel

end PioplatRelay
