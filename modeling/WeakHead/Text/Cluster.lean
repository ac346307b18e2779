import WeakHead.Text.ClusterClass

/-!
# Clusters

`clusters` divides a text into what a reader takes for single characters. Whether a character
belongs to the cluster before it is decided by that cluster alone, so the text is divided from its
start. Main statements: nothing is lost, the clusters after each other are the text; and no cluster
is empty.

A cluster that is not complete is given from its last character to its first.
-/

namespace WeakHead.Text

namespace ClusterClass

/-- Whether a character of this class keeps apart from both its neighbours. -/
def isApart : ClusterClass → Bool
  | carriageReturn | lineFeed | control => true
  | _ => false

/-- Whether a character of this class belongs to what is before it. -/
def trails : ClusterClass → Bool
  | extend | joiner | spacing => true
  | _ => false

/-- Whether two characters of these classes are parts of one syllable. -/
def sharesSyllable : ClusterClass → ClusterClass → Bool
  | leadingJamo, right =>
    right = leadingJamo || right = vowelJamo || right = openSyllable || right = closedSyllable
  | vowelJamo, right | openSyllable, right => right = vowelJamo || right = trailingJamo
  | trailingJamo, right | closedSyllable, right => right = trailingJamo
  | _, _ => false

end ClusterClass

/-- The mark that keeps two letters from being written together. -/
def nonJoiner : Char := '\u200C'

/-- Whether a character may stand between two consonants that are written together. -/
def isBetweenConsonants (c : Char) : Bool :=
  isLinker c || clusterClass c = .joiner || (clusterClass c = .extend && c != nonJoiner)

/-- Whether a consonant stands at the end of a cluster with a linker after it. -/
def endsLinked (cluster : List Char) : Bool :=
  match cluster.dropWhile isBetweenConsonants with
  | c :: _ => clusterClass c = .consonant && (cluster.takeWhile isBetweenConsonants).any isLinker
  | [] => false

/-- Whether a pictograph stands at the end of a cluster, with nothing but extensions after it. -/
def endsInPictograph (cluster : List Char) : Bool :=
  match cluster.dropWhile fun c => clusterClass c = .extend with
  | c :: _ => clusterClass c = .pictograph
  | [] => false

/-- Whether the first half of a flag stands at the end of a cluster. -/
def endsInHalfFlag (cluster : List Char) : Bool :=
  (cluster.takeWhile fun c => clusterClass c = .regional).length % 2 = 1

/-- Whether a character belongs to the cluster before it. -/
def sticksTo : (cluster : List Char) → Char → Bool
  | [], _ => false
  | last :: before, c =>
    let left := clusterClass last
    let right := clusterClass c
    if left.isApart || right.isApart then left = .carriageReturn && right = .lineFeed
    else
      right.trails || left = .preceding || left.sharesSyllable right ||
      (right = .consonant && endsLinked (last :: before)) ||
      (right = .pictograph && left = .joiner && endsInPictograph before) ||
      (right = .regional && endsInHalfFlag (last :: before))

/-- The clusters of a text of which the first has begun. -/
def clustersFrom (cluster : List Char) : List Char → List (List Char)
  | [] => [cluster.reverse]
  | c :: rest =>
    if sticksTo cluster c then clustersFrom (c :: cluster) rest
    else cluster.reverse :: clustersFrom [c] rest

/-- The clusters of a text, in order. -/
def clusters : List Char → List (List Char)
  | [] => []
  | c :: rest => clustersFrom [c] rest

/-- Nothing is lost behind a cluster that has begun. -/
theorem flatten_clustersFrom (cluster rest : List Char) :
    (clustersFrom cluster rest).flatten = cluster.reverse ++ rest := by
  induction rest generalizing cluster with
  | nil => simp [clustersFrom]
  | cons c rest ih =>
    unfold clustersFrom
    split <;> simp [ih]

/-- The clusters after each other are the text. -/
theorem flatten_clusters (text : List Char) : (clusters text).flatten = text := by
  cases text with
  | nil => rfl
  | cons c rest => simp [clusters, flatten_clustersFrom]

/-- A cluster that has begun is not empty in the end. -/
theorem nil_not_mem_clustersFrom {cluster : List Char} (hc : cluster ≠ []) (rest : List Char) :
    [] ∉ clustersFrom cluster rest := by
  induction rest generalizing cluster with
  | nil => simpa [clustersFrom] using hc.symm
  | cons c rest ih =>
    unfold clustersFrom
    split
    · exact ih (List.cons_ne_nil c cluster)
    · simpa [hc] using ih (List.cons_ne_nil c [])

/-- No cluster is empty. -/
theorem nil_not_mem_clusters (text : List Char) : [] ∉ clusters text := by
  cases text with
  | nil => simp [clusters]
  | cons c rest => exact nil_not_mem_clustersFrom (List.cons_ne_nil c []) rest

end WeakHead.Text
