namespace HostBridge

/-- What reading or writing a member that a host type does not expose does. -/
inductive MissingMember where
  | nil | raise
  deriving DecidableEq, Repr, Inhabited

/-- Library subsets, one bit each, carried for the program that opens libraries on a state. -/
structure Libraries where
  bits : Nat
  deriving DecidableEq, Repr, Inhabited

namespace Libraries

def base : Libraries := ⟨1 <<< 0⟩
def package : Libraries := ⟨1 <<< 1⟩
def coroutine : Libraries := ⟨1 <<< 2⟩
def string : Libraries := ⟨1 <<< 3⟩
def utf8 : Libraries := ⟨1 <<< 4⟩
def table : Libraries := ⟨1 <<< 5⟩
def math : Libraries := ⟨1 <<< 6⟩
def files : Libraries := ⟨1 <<< 7⟩
def system : Libraries := ⟨1 <<< 8⟩
def debug : Libraries := ⟨1 <<< 9⟩

def union (ls : List Libraries) : Libraries := ⟨ls.foldl (fun b l => b ||| l.bits) 0⟩

def all : Libraries :=
  union [base, package, coroutine, string, utf8, table, math, files, system, debug]

def ofBits (b : Nat) : Libraries := ⟨b &&& all.bits⟩

end Libraries

structure Config where
  missingMember : MissingMember := .nil
  maxStackDepth : Nat := 1000000
  maxCallDepth : Nat := 200
  maxConversionDepth : Nat := 64
  catchPanics : Bool := true
  libraries : Libraries := Libraries.all
  deriving DecidableEq, Repr, Inhabited

namespace Config

def standard : Config := {}

def strict : Config := { missingMember := .raise }

def constrained : Config where
  missingMember := .raise
  maxStackDepth := 8192
  maxCallDepth := 32
  maxConversionDepth := 16
  libraries := .union [.base, .string, .table, .math]

end Config
end HostBridge
