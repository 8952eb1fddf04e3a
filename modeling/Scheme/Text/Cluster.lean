import Scheme.Text.ClusterClass
/-!
# Clusters

What a reader takes for one character: a base with its marks, a syllable block, a flag, a joined
pictograph, a conjunct. A text is cut into clusters from the left.
-/

namespace Scheme.Text

/-- What the text before a position lets join it. -/
structure ClusterEnd where
  /-- The class of the last character. -/
  last : ClusterClass
  /-- Whether the regional letters at the end are odd in number, so that one has no partner. -/
  unpaired : Bool
  /-- Whether a pictograph stands at the end, with extenders and at most a joiner after it. -/
  pictured : Bool
  /-- Whether a consonant stands at the end with extenders after it, and if so, whether a linker is
  among these. -/
  linked : Option Bool

namespace ClusterEnd

/-- The end of a text that consists of one character. -/
def ofChar (c : Char) : ClusterEnd :=
  let kind := clusterClass c
  { last := kind
    unpaired := kind == .regional
    pictured := kind == .pictograph
    linked := if isConsonant c then some false else none }

/-- The end after a character that joined. -/
def extend (e : ClusterEnd) (c : Char) : ClusterEnd :=
  let kind := clusterClass c
  let attached := kind == .extender || kind == .joiner
  { last := kind
    unpaired := kind == .regional && !e.unpaired
    pictured := kind == .pictograph || (attached && e.pictured && e.last != .joiner)
    linked :=
      if isConsonant c then some false
      else if isLinker c then e.linked.map fun _ => true
      else if attached && c.toNat != 0x200c then e.linked
      else none }

/-- Whether a character belongs to the cluster before it. -/
def admits (e : ClusterEnd) (c : Char) : Bool :=
  match e.last, clusterClass c with
  | .carriageReturn, .lineFeed => true
  | .carriageReturn, _ | .lineFeed, _ | .control, _ => false
  | _, .carriageReturn | _, .lineFeed | _, .control => false
  | _, .extender | _, .joiner | _, .spacing => true
  | .prepended, _ => true
  | .leading, .leading | .leading, .vowel | .leading, .openBlock | .leading, .closedBlock => true
  | .openBlock, .vowel | .openBlock, .trailing | .vowel, .vowel | .vowel, .trailing => true
  | .closedBlock, .trailing | .trailing, .trailing => true
  | .joiner, .pictograph => e.pictured
  | .regional, .regional => e.unpaired
  | _, _ => isConsonant c && e.linked == some true

end ClusterEnd

/-- The clusters of a text whose current cluster, given in reverse, has the end `e`. -/
def clustersAfter (cluster : List Char) (e : ClusterEnd) : List Char → List (List Char)
  | [] => [cluster.reverse]
  | c :: rest =>
    if e.admits c then clustersAfter (c :: cluster) (e.extend c) rest
    else cluster.reverse :: clustersAfter [c] (.ofChar c) rest

/-- The clusters of a text in order. -/
def clusters : List Char → List (List Char)
  | [] => []
  | c :: rest => clustersAfter [c] (.ofChar c) rest

end Scheme.Text
