import Aflare.Go.Strings

/-!
# `net.IP`

An address of the `net` package is a slice of bytes, four for IPv4 and sixteen for IPv6. An IPv4
address also has a form of sixteen bytes, behind ten zeros and two bytes `0xff`, and every
classification reads both forms alike.
-/

namespace Go.Net

/-- An address as the `net` package holds it. -/
abbrev IP := List UInt8

/-- The four bytes of an IPv4 address. -/
structure Quad where
  a : UInt8
  b : UInt8
  c : UInt8
  d : UInt8
deriving DecidableEq

/-- Four bytes as an IPv4 address. -/
def quad : List UInt8 → Option Quad
  | [a, b, c, d] => some ⟨a, b, c, d⟩
  | _ => none

/-- What stands before an IPv4 address in its form of sixteen bytes. -/
def v4InV6Prefix : List UInt8 := [0, 0, 0, 0, 0, 0, 0, 0, 0, 0, 0xff, 0xff]

variable (ip : IP)

def to4 : Option Quad :=
  if ip.length = 4 then quad ip
  else if ip.length = 16 ∧ ip.take 12 = v4InV6Prefix then quad (ip.drop 12)
  else none

/-- `IP.Equal`: an IPv4 address equals its form of sixteen bytes. -/
def equal (ip x : IP) : Bool :=
  if ip.length = x.length then ip = x
  else if ip.length = 4 ∧ x.length = 16 then x.take 12 = v4InV6Prefix ∧ ip = x.drop 12
  else if ip.length = 16 ∧ x.length = 4 then ip.take 12 = v4InV6Prefix ∧ ip.drop 12 = x
  else false

def ipv4Zero : IP := v4InV6Prefix ++ [0, 0, 0, 0]

def ipv6Unspecified : IP := List.replicate 16 0

def ipv6Loopback : IP := List.replicate 15 0 ++ [1]

def isUnspecified : Bool := equal ip ipv4Zero || equal ip ipv6Unspecified

def isLoopback : Bool :=
  match to4 ip with
  | some q => q.a == 127
  | none => equal ip ipv6Loopback

/-- The three private ranges of IPv4. -/
def Quad.isRFC1918 (q : Quad) : Bool :=
  q.a == 10 || (q.a == 172 && q.b &&& 0xf0 == 16) || (q.a == 192 && q.b == 168)

/-- `fc00::/7`, the unique local addresses of IPv6. -/
def isUniqueLocal : Bool := ip.length == 16 && ip.getD 0 0 &&& 0xfe == 0xfc

def isPrivate : Bool :=
  match to4 ip with
  | some q => q.isRFC1918
  | none => isUniqueLocal ip

def isMulticast : Bool :=
  match to4 ip with
  | some q => q.a &&& 0xf0 == 0xe0
  | none => ip.length == 16 && ip.getD 0 0 == 0xff

def isLinkLocalMulticast : Bool :=
  match to4 ip with
  | some q => q.a == 224 && q.b == 0 && q.c == 0
  | none => ip.length == 16 && ip.getD 0 0 == 0xff && ip.getD 1 0 &&& 0x0f == 0x02

def isLinkLocalUnicast : Bool :=
  match to4 ip with
  | some q => q.a == 169 && q.b == 254
  | none => ip.length == 16 && ip.getD 0 0 == 0xfe && ip.getD 1 0 &&& 0xc0 == 0x80

/-- An IPv4 address, in either form, of one of the three private ranges. -/
def isRFC1918 : Bool :=
  match to4 ip with
  | some q => q.isRFC1918
  | none => false

theorem isRFC1918_iff {ip : IP} :
    isRFC1918 ip = true ↔ ∃ q, to4 ip = some q ∧ q.isRFC1918 = true := by
  rw [isRFC1918]
  cases to4 ip with
  | none => simp
  | some q => simp

theorem isPrivate_iff {ip : IP} :
    isPrivate ip = true ↔ isRFC1918 ip = true ∨ (to4 ip = none ∧ isUniqueLocal ip = true) := by
  rw [isPrivate, isRFC1918]
  cases to4 ip with
  | none => simp
  | some q => simp

/-- Of the IPv4 addresses, in either form, only `0.0.0.0` is unspecified. -/
theorem to4_of_isUnspecified {ip : IP} {q : Quad} (h : isUnspecified ip = true)
    (hq : to4 ip = some q) : q = ⟨0, 0, 0, 0⟩ := by
  rw [isUnspecified, Bool.or_eq_true, equal, equal] at h
  have hzero : ipv4Zero.length = 16 ∧ ipv4Zero.drop 12 = [0, 0, 0, 0] := ⟨rfl, rfl⟩
  have hnone : ipv6Unspecified.length = 16 := rfl
  have hprefix : ipv6Unspecified.take 12 ≠ v4InV6Prefix := by decide
  by_cases hlen : ip.length = 16
  · -- Sixteen bytes: the address is one of the two constants.
    simp only [hlen, hzero, hnone, if_true, decide_eq_true_eq] at h
    rcases h with rfl | rfl
    · cases hq
      rfl
    · cases hq
  · by_cases hshort : ip.length = 4
    · -- Four bytes: only the first constant has a short form.
      simp only [hshort, hzero, hnone, hprefix] at h
      obtain ⟨-, rfl⟩ : ipv4Zero.take 12 = v4InV6Prefix ∧ ip = [0, 0, 0, 0] := by simpa using h
      cases hq
      rfl
    · simp [to4, hlen, hshort] at hq

end Go.Net
