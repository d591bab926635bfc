import Ocx.Util.Text

/-!
# The guard against forbidden hosts

An index names the host its blobs are fetched from.  Before that host is dialled every address it
resolves to is judged: loopback, private, link-local and other special addresses are refused unless
the host is trusted.  An IPv6 address that carries an IPv4 address is meant to be judged by it.
-/

namespace Ocx

abbrev Ipv4Addr := BitVec 32

def Ipv4Addr.octet (a : Ipv4Addr) (i : ℕ) : ℕ := (a.extractLsb' (24 - 8 * i) 8).toNat

structure Ipv6Addr where
  s0 : BitVec 16
  s1 : BitVec 16
  s2 : BitVec 16
  s3 : BitVec 16
  s4 : BitVec 16
  s5 : BitVec 16
  s6 : BitVec 16
  s7 : BitVec 16
deriving DecidableEq

inductive IpAddr where
  | v4 (a : Ipv4Addr)
  | v6 (a : Ipv6Addr)
deriving DecidableEq

/-! ### The refused addresses -/

namespace Ipv4Addr

variable (a : Ipv4Addr)

def isLoopback : Bool := a.octet 0 = 127

def isPrivate : Bool :=
  a.octet 0 = 10 ∨ (a.octet 0 = 172 ∧ 16 ≤ a.octet 1 ∧ a.octet 1 ≤ 31) ∨
    (a.octet 0 = 192 ∧ a.octet 1 = 168)

def isLinkLocal : Bool := a.octet 0 = 169 ∧ a.octet 1 = 254

def isMulticast : Bool := 224 ≤ a.octet 0 ∧ a.octet 0 ≤ 239

def isDocumentation : Bool :=
  (a.octet 0 = 192 ∧ a.octet 1 = 0 ∧ a.octet 2 = 2) ∨
    (a.octet 0 = 198 ∧ a.octet 1 = 51 ∧ a.octet 2 = 100) ∨
    (a.octet 0 = 203 ∧ a.octet 1 = 0 ∧ a.octet 2 = 113)

end Ipv4Addr

def isSharedCgnat (a : Ipv4Addr) : Bool := a.octet 0 = 100 ∧ a.octet 1 &&& 0xc0 = 0x40

def isBenchmarking (a : Ipv4Addr) : Bool := a.octet 0 = 198 ∧ a.octet 1 &&& 0xfe = 18

def isReserved (a : Ipv4Addr) : Bool := 240 ≤ a.octet 0

def isForbiddenV4 (a : Ipv4Addr) : Bool :=
  a.isLoopback || a.isPrivate || a.isLinkLocal || a = 0 || isSharedCgnat a || a = 0xffffffff ||
    a.isMulticast || a.isDocumentation || isBenchmarking a || isReserved a

/-- The address that an IPv4-mapped address stands for. -/
def Ipv6Addr.toIpv4Mapped (a : Ipv6Addr) : Option Ipv4Addr :=
  if a.s0 = 0 ∧ a.s1 = 0 ∧ a.s2 = 0 ∧ a.s3 = 0 ∧ a.s4 = 0 ∧ a.s5 = 0xffff then some (a.s6 ++ a.s7)
  else none

def isDocumentationV6 (a : Ipv6Addr) : Bool := a.s0 = 0x2001 ∧ a.s1 = 0x0db8

/-- The last two segments are a refused IPv4 address, behind one of two beginnings. -/
def embedsForbiddenV4 (a : Ipv6Addr) : Bool :=
  let front := [a.s0, a.s1, a.s2, a.s3, a.s4, a.s5]
  if front ≠ [0, 0, 0, 0, 0, 0] ∧ front ≠ [0x64, 0xff9b, 0, 0, 0, 0] then false
  else isForbiddenV4 (a.s6 ++ a.s7)

def isForbiddenV6 (a : Ipv6Addr) : Bool :=
  match a.toIpv4Mapped with
  | some v4 => isForbiddenV4 v4
  | none =>
    a = ⟨0, 0, 0, 0, 0, 0, 0, 1⟩ || a = ⟨0, 0, 0, 0, 0, 0, 0, 0⟩ || a.s0 &&& 0xff00 = 0xff00 ||
      isDocumentationV6 a || a.s0 &&& 0xfe00 = 0xfc00 || a.s0 &&& 0xffc0 = 0xfe80 ||
      embedsForbiddenV4 a

def isForbiddenIp : IpAddr → Bool
  | .v4 a => isForbiddenV4 a
  | .v6 a => isForbiddenV6 a

/-! ### Trusted hosts -/

/-- How the standard library reads an address and an 8-bit number. -/
structure AddrText where
  parseIp : String → Option IpAddr
  parseU8 : String → Option UInt8

variable (text : AddrText)

/-- A network and the length of its fixed part. -/
def parseCidr (entry : String) : Option (IpAddr × ℕ) := do
  let (addr, length) ← splitOnce '/' entry.toList
  let network ← text.parseIp (String.ofList addr)
  let length ← text.parseU8 (String.ofList length)
  let max := match network with
    | .v4 _ => 32
    | .v6 _ => 128
  if length.toNat ≤ max then some (network, length.toNat) else none

def Ipv6Addr.bits (a : Ipv6Addr) : BitVec 128 :=
  (a.s0 ++ a.s1 ++ a.s2 ++ a.s3 ++ a.s4 ++ a.s5 ++ a.s6 ++ a.s7 : BitVec 128)

def cidrContains (network : IpAddr) (length : ℕ) : IpAddr → Bool
  | .v4 ip =>
    match network with
    | .v4 network => network &&& (-1 <<< (32 - length)) = ip &&& (-1 <<< (32 - length))
    | .v6 _ => false
  | .v6 ip =>
    match network with
    | .v4 _ => false
    | .v6 network => network.bits &&& (-1 <<< (128 - length)) = ip.bits &&& (-1 <<< (128 - length))

/-- A host that is listed, or is an address of a listed network. -/
def hostIsTrusted (host : String) (trusted : List String) : Bool :=
  trusted.any fun entry =>
    entry = host ||
      match text.parseIp host, parseCidr text entry with
      | some ip, some (network, length) => cidrContains network length ip
      | _, _ => false

/-- Why a host is not dialled. -/
inductive SsrfError (ε : Type) where
  | forbiddenTarget (host : String) (ip : IpAddr)
  | resolution (host : String) (source : ε)

/-- Resolve a host, refusing every forbidden address unless the host is trusted. -/
def resolveAndValidate {ε : Type} (lookup : Except ε (List (IpAddr × UInt16))) (host : String)
    (trusted : List String) : Except (SsrfError ε) (List (IpAddr × UInt16)) :=
  match lookup with
  | .error source => .error (.resolution host source)
  | .ok addresses =>
    if hostIsTrusted text host trusted then .ok addresses
    else
      match addresses.find? fun address => isForbiddenIp address.1 with
      | some address => .error (.forbiddenTarget host address.1)
      | none => .ok addresses

/-! ### Embeddings -/

/-- The standard ways to carry an IPv4 address in an IPv6 address. -/
inductive Embedding where
  | mapped
  | compatible
  | translated
  | nat64
  | sixToFour (lower : BitVec 80)

namespace Embedding

def carry (a : Ipv4Addr) : Embedding → Ipv6Addr
  | mapped => ⟨0, 0, 0, 0, 0, 0xffff, a.extractLsb' 16 16, a.extractLsb' 0 16⟩
  | compatible => ⟨0, 0, 0, 0, 0, 0, a.extractLsb' 16 16, a.extractLsb' 0 16⟩
  | translated => ⟨0, 0, 0, 0, 0xffff, 0, a.extractLsb' 16 16, a.extractLsb' 0 16⟩
  | nat64 => ⟨0x64, 0xff9b, 0, 0, 0, 0, a.extractLsb' 16 16, a.extractLsb' 0 16⟩
  | sixToFour lower =>
    ⟨0x2002, a.extractLsb' 16 16, a.extractLsb' 0 16, lower.extractLsb' 64 16,
      lower.extractLsb' 48 16, lower.extractLsb' 32 16, lower.extractLsb' 16 16,
      lower.extractLsb' 0 16⟩

/-- The guard looks at the address that is carried. -/
def Unwrapped : Embedding → Prop
  | mapped | compatible | nat64 => True
  | translated | sixToFour _ => False

end Embedding

theorem append_segments (a : Ipv4Addr) : a.extractLsb' 16 16 ++ a.extractLsb' 0 16 = a := by
  ext i h
  simp only [BitVec.getElem_append, BitVec.getElem_extractLsb']
  split <;> simp_all

/-- No address that starts with the segment of 6to4 is refused. -/
theorem isForbiddenV6_sixToFour {a : Ipv6Addr} (h : a.s0 = 0x2002) : isForbiddenV6 a = false := by
  have hzero : a.s0 ≠ 0 := by rw [h]; decide
  have hmapped : a.toIpv4Mapped = none := if_neg fun hm => hzero hm.1
  have hnat : a.s0 ≠ 0x64 := by rw [h]; decide
  have hembeds : embedsForbiddenV4 a = false :=
    if_pos ⟨fun e => hzero (List.cons.inj e).1, fun e => hnat (List.cons.inj e).1⟩
  have hdoc : isDocumentationV6 a = false := by simp [isDocumentationV6, h]
  have hloop : ∀ s, a ≠ ⟨0, 0, 0, 0, 0, 0, 0, s⟩ := by rintro s rfl; exact hzero rfl
  simp only [isForbiddenV6, hmapped, hembeds, hdoc, h, Bool.or_false, decide_eq_false (hloop _)]
  decide

theorem isForbiddenV6_carry (form : Embedding) (a : Ipv4Addr) (ha : isForbiddenV4 a = true) :
    isForbiddenV6 (form.carry a) = true ↔ form.Unwrapped := by
  cases form with
  | mapped =>
    simp [isForbiddenV6, Embedding.carry, Ipv6Addr.toIpv4Mapped, append_segments, ha,
      Embedding.Unwrapped]
  | compatible | nat64 =>
    simp [isForbiddenV6, Embedding.carry, Ipv6Addr.toIpv4Mapped, embedsForbiddenV4, append_segments,
      ha, Embedding.Unwrapped]
  | translated =>
    simp [isForbiddenV6, Embedding.carry, Ipv6Addr.toIpv4Mapped, embedsForbiddenV4,
      isDocumentationV6, Embedding.Unwrapped]
  | sixToFour lower =>
    refine iff_of_false ?_ id
    rw [isForbiddenV6_sixToFour rfl]
    exact Bool.false_ne_true

/-- An untrusted host is never given a forbidden address. -/
theorem allowed_of_resolveAndValidate {ε : Type} {text : AddrText} {host : String}
    {trusted : List String} {lookup : Except ε (List (IpAddr × UInt16))}
    {addresses : List (IpAddr × UInt16)} (hhost : hostIsTrusted text host trusted = false)
    (h : resolveAndValidate text lookup host trusted = .ok addresses) :
    ∀ address ∈ addresses, isForbiddenIp address.1 = false := by
  unfold resolveAndValidate at h
  rw [hhost] at h
  split at h
  · cases h
  · split at h
    · contradiction
    · split at h
      · cases h
      · rename_i hnone
        cases h
        simpa using hnone

/-- No lookup makes the guard return the address for a host that is not trusted. -/
def NeverReturned (ip : IpAddr) : Prop :=
  ∀ (ε : Type) (text : AddrText) (host : String) (trusted : List String)
    (lookup : Except ε (List (IpAddr × UInt16))) (addresses : List (IpAddr × UInt16)),
    hostIsTrusted text host trusted = false →
    resolveAndValidate text lookup host trusted = .ok addresses →
    ∀ address ∈ addresses, address.1 ≠ ip

/-- **A forbidden IPv4 address is refused in an IPv6 address exactly under an embedding that the
guard unwraps.** Under any other the guard lets it through. -/
theorem embedding_refused_iff (form : Embedding) (a : Ipv4Addr)
    (ha : isForbiddenIp (.v4 a) = true) :
    (isForbiddenIp (.v6 (form.carry a)) = true ∧ NeverReturned (.v6 (form.carry a))) ↔
      form.Unwrapped := by
  refine ⟨fun h => (isForbiddenV6_carry form a ha).1 h.1, fun h => ?_⟩
  have hcarry : isForbiddenIp (.v6 (form.carry a)) = true := (isForbiddenV6_carry form a ha).2 h
  refine ⟨hcarry, fun ε text host trusted lookup addresses hhost hok address hmem heq => ?_⟩
  have hallowed := allowed_of_resolveAndValidate hhost hok address hmem
  rw [heq, hcarry] at hallowed
  cases hallowed

theorem loopback_refused_iff :
    (isForbiddenIp (.v6 (Embedding.nat64.carry 0x7f000001)) = true ∧
      NeverReturned (.v6 (Embedding.nat64.carry 0x7f000001))) ↔ Embedding.nat64.Unwrapped :=
  embedding_refused_iff .nat64 0x7f000001 (by decide)

def smuggledMetadata : IpAddr := .v6 ((Embedding.sixToFour 0).carry 0xa9fea9fe)

/-- The metadata address of a cloud host gets past the guard as `2002:a9fe:a9fe::` and as
`::ffff:0:a9fe:a9fe`: a host that resolves to it is dialled. -/
theorem metadata_address_smuggled :
    isForbiddenIp (.v4 0xa9fea9fe) = true ∧ isForbiddenIp smuggledMetadata = false ∧
      isForbiddenIp (.v6 (Embedding.translated.carry 0xa9fea9fe)) = false ∧
      (resolveAndValidate ⟨fun _ => none, fun _ => none⟩ (.ok [(smuggledMetadata, 443)])
        "registry.example" [] : Except (SsrfError Unit) _).toOption =
        some [(smuggledMetadata, 443)] := by
  decide

end Ocx
