import Mathlib.Data.UInt

/-!
# Internet addresses in routed

The part of `af.c` that looks at one address only, with the address classes that the rest of
routed is built on. An address stands in host byte order.
-/

namespace Netkit.Routed

def AF_UNSPEC : UInt16 := 0
def AF_INET : UInt16 := 2

/-- The 14 bytes of `sa_data` are `sin_port`, `sin_addr` and `sin_zero`. -/
structure Sockaddr where
  family : UInt16
  port : UInt16
  addr : UInt32
  zero : UInt64
  deriving DecidableEq

/-- The address without a port: what a cleared `struct sockaddr_in` holds after its family and
its address have been set. -/
def sockaddrIn (addr : UInt32) : Sockaddr := ⟨AF_INET, 0, addr, 0⟩

/-- `same` of `if.c`: the family is not compared. -/
def same (a₁ a₂ : Sockaddr) : Bool :=
  a₁.port == a₂.port && a₁.addr == a₂.addr && a₁.zero == a₂.zero

def inetDefault : Sockaddr := sockaddrIn 0

def inetCanon (sin : Sockaddr) : Sockaddr := { sin with port := 0 }

/-! ## Classes -/

def IN_CLASSA (i : UInt32) : Bool := i &&& 0x80000000 == 0
def IN_CLASSB (i : UInt32) : Bool := i &&& 0xc0000000 == 0x80000000
def IN_EXPERIMENTAL (i : UInt32) : Bool := i &&& 0xe0000000 == 0xe0000000

def IN_CLASSA_NET : UInt32 := 0xff000000
def IN_CLASSB_NET : UInt32 := 0xffff0000
def IN_CLASSC_NET : UInt32 := 0xffffff00

/-- `IN_CLASSA_NET`, `IN_CLASSB_NET` or `IN_CLASSC_NET`, as routed chooses everywhere: what is
in neither of the first two classes counts as class C. The host mask is the complement. -/
def classMask (i : UInt32) : UInt32 :=
  if IN_CLASSA i then IN_CLASSA_NET
  else if IN_CLASSB i then IN_CLASSB_NET
  else IN_CLASSC_NET

def classNet (i : UInt32) : UInt32 := i &&& classMask i

/-- `inet_makeaddr(net, INADDR_ANY)`: no bit of the host part is set, whatever the mask. -/
def inetMakeaddr (net : UInt32) : UInt32 := net

def inetCheckhost (sin : Sockaddr) : Bool :=
  !(IN_EXPERIMENTAL sin.addr || sin.port != 0) &&
    !(sin.addr != 0 && sin.addr &&& 0xff000000 == 0) && sin.zero == 0

theorem inetCheckhost_canonical {sin : Sockaddr} (hfamily : sin.family = AF_INET)
    (h : inetCheckhost sin = true) : sin = sockaddrIn sin.addr := by
  obtain ⟨family, port, addr, zero⟩ := sin
  obtain rfl : family = AF_INET := hfamily
  simp only [inetCheckhost, Bool.and_eq_true, Bool.not_eq_true', Bool.or_eq_false_iff,
    bne_eq_false_iff_eq, beq_iff_eq] at h
  obtain ⟨⟨⟨-, hport⟩, -⟩, hzero⟩ := h
  rw [hport, hzero]
  rfl

theorem IN_CLASSA_and {i m : UInt32} (h : m &&& 0x80000000 = 0x80000000) :
    IN_CLASSA (i &&& m) = IN_CLASSA i := by
  unfold IN_CLASSA
  rw [UInt32.and_assoc, h]

theorem IN_CLASSB_and {i m : UInt32} (h : m &&& 0xc0000000 = 0xc0000000) :
    IN_CLASSB (i &&& m) = IN_CLASSB i := by
  unfold IN_CLASSB
  rw [UInt32.and_assoc, h]

theorem classMask_cases (i : UInt32) :
    classMask i = IN_CLASSA_NET ∨ classMask i = IN_CLASSB_NET ∨
      classMask i = IN_CLASSC_NET := by
  unfold classMask
  split
  · exact Or.inl rfl
  · split
    · exact Or.inr (Or.inl rfl)
    · exact Or.inr (Or.inr rfl)

theorem classMask_and_classMask (i j : UInt32) : classMask (i &&& classMask j) = classMask i := by
  have hbits : classMask j &&& 0x80000000 = 0x80000000 ∧
      classMask j &&& 0xc0000000 = 0xc0000000 := by
    rcases classMask_cases j with h | h | h <;> rw [h] <;> decide
  rw [classMask, IN_CLASSA_and hbits.1, IN_CLASSB_and hbits.2, ← classMask]

@[simp] theorem classMask_classNet (i : UInt32) : classMask (classNet i) = classMask i :=
  classMask_and_classMask i i

/-- The class mask of `j` takes a network number to the network number of `j` only if the two
are equal. -/
theorem classMask_and_classNet_eq_iff (i j : UInt32) :
    classMask j &&& classNet i = classNet j ↔ classNet i = classNet j := by
  constructor
  · intro h
    have hclass : classMask i = classMask j := by
      rw [← classMask_classNet i, ← classMask_and_classMask (classNet i) j, UInt32.and_comm, h,
        classMask_classNet]
    rw [← h, classNet, ← hclass, UInt32.and_comm (classMask i), UInt32.and_assoc,
      UInt32.and_self]
  · intro h
    rw [h, classNet, UInt32.and_comm, UInt32.and_assoc, UInt32.and_self]

end Netkit.Routed
