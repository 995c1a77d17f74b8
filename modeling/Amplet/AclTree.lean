import Amplet.Bytes

/-!
# Access control trees

Embedding of `src/measured/acl.c`. `getLabel` returns the offset of the last label, so
the test `label == fqdn` of the source is `start = 0` and `label[0] = '\0'` is `take
start`. The child counter is an eight bit value and `realloc` keeps `numChildren + 1`
slots, exactly as in the source.
-/

namespace Amplet.AclTree
open Bytes

structure AclNode where
  label : CStr
  permissions : UInt8
  isset : Bool
  numChildren : UInt8
  children : List AclNode

structure AclRoot where
  server : AclNode
  test : AclNode
  schedule : AclNode

inductive AclProperty
  | server
  | test
  | schedule
deriving DecidableEq, Repr

/-- The `switch` on the property byte; `none` is its default case. -/
def AclProperty.ofByte (property : UInt8) : Option AclProperty :=
  if property = 1 then some .server
  else if property = 2 then some .test
  else if property = 4 then some .schedule
  else none

def AclRoot.subtree (root : AclRoot) : AclProperty → AclNode
  | .server => root.server
  | .test => root.test
  | .schedule => root.schedule

def AclRoot.setSubtree (root : AclRoot) (node : AclNode) : AclProperty → AclRoot
  | .server => { root with server := node }
  | .test => { root with test := node }
  | .schedule => { root with schedule := node }

def getLabel (fqdn : CStr) : ℕ := (strrchr dot fqdn).getD 0

def newAclNode (label : CStr) (permissions : UInt8) (isset : Bool) : AclNode :=
  ⟨label, permissions, isset, 0, []⟩

def initialiseAcl : AclRoot :=
  ⟨newAclNode (cstr "all") 0 false, newAclNode (cstr "all") 0 false, newAclNode (cstr "all") 0 false⟩

mutual

def getAclInternal : AclNode → CStr → UInt8
  | ⟨_, permissions, _, numChildren, children⟩, fqdn =>
    if 0 < numChildren then
      getAclLoop children numChildren.toNat fqdn (getLabel fqdn) permissions
    else permissions

def getAclLoop : List AclNode → ℕ → CStr → ℕ → UInt8 → UInt8
  | child :: rest, n + 1, fqdn, start, permissions =>
    if child.label = fqdn.drop start then getAclInternal child (fqdn.take start)
    else getAclLoop rest n fqdn start permissions
  | _, _, _, _, permissions => permissions

end

def getAcl (root : AclRoot) (fqdn : CStr) (property : UInt8) : UInt8 :=
  match AclProperty.ofByte property with
  | some p => getAclInternal (root.subtree p) fqdn
  | none => 0

def AclNode.isWildcard (node : AclNode) : Bool := node.label.head? = some dot

mutual

def updateAclSubtree : AclNode → UInt8 → AclNode
  | ⟨label, permissions, isset, numChildren, children⟩, value =>
    if isset && label.head? = some dot then ⟨label, permissions, isset, numChildren, children⟩
    else ⟨label, if isset then permissions else value, isset, numChildren, updateAclChildren children numChildren.toNat value⟩

def updateAclChildren : List AclNode → ℕ → UInt8 → List AclNode
  | child :: rest, n + 1, value => updateAclSubtree child value :: updateAclChildren rest n value
  | rest, _, _ => rest

end

/-- A wildcard also passes its value on to the nodes below. -/
def modifyRule (value : UInt8) (node : AclNode) : AclNode :=
  { node with
    permissions := value
    isset := true
    children :=
      if node.isWildcard then updateAclChildren node.children node.numChildren.toNat value
      else node.children }

def findChild (root : AclNode) (label : CStr) : Option ℕ :=
  (root.children.take root.numChildren.toNat).findIdx? (fun child => child.label = label)

/-- `realloc` to one more slot than the counter, then a post-increment of the
eight bit counter. -/
def appendChild (root child : AclNode) : AclNode :=
  { root with
    numChildren := root.numChildren + 1
    children := root.children.take root.numChildren.toNat ++ [child] }

theorem getLabel_lt {fqdn : CStr} (h : getLabel fqdn ≠ 0) : getLabel fqdn < fqdn.length := by
  rcases last_split dot fqdn with hd | ⟨a, b, rfl, hb⟩
  · simp [getLabel, strrchr_eq_none hd] at h
  · simp [getLabel, strrchr_append_cons a hb]

def addAclInternal (root : AclNode) (fqdn : CStr) (value : UInt8) : AclNode :=
  match findChild root (fqdn.drop (getLabel fqdn)) with
  | some i =>
    if _h : getLabel fqdn ≠ 0 then
      { root with
        children := root.children.modify i fun child => addAclInternal child (fqdn.take (getLabel fqdn)) value }
    else { root with children := root.children.modify i (modifyRule value) }
  | none =>
    if _h : getLabel fqdn ≠ 0 then
      appendChild root (addAclInternal (newAclNode (fqdn.drop (getLabel fqdn)) root.permissions false)
        (fqdn.take (getLabel fqdn)) value)
    else appendChild root (newAclNode (fqdn.drop (getLabel fqdn)) value true)
termination_by fqdn.length
decreasing_by
  all_goals
    have := getLabel_lt _h
    simp only [List.length_take]
    omega

/-- `-1` and an unchanged tree for an unknown property. -/
def addAcl (root : AclRoot) (fqdn : CStr) (property value : UInt8) : ℤ × AclRoot :=
  match AclProperty.ofByte property with
  | none => (-1, root)
  | some p =>
    if fqdn = cstr "all" then (0, root.setSubtree (updateAclSubtree (root.subtree p) value) p)
    else (0, root.setSubtree (addAclInternal (root.subtree p) fqdn value) p)

end Amplet.AclTree
