import Autocomp.Utils.DecisionTree.Walk
import Mathlib.Data.Finset.Max
import Mathlib.Data.List.TakeWhile

/-!
# Saved decision trees

`save_decision_tree` of the training notebook writes a fitted tree in the format that the constructor
of `DecisionTree` reads. The number of features it writes is that of the features the tree tests, and
`classify` refuses points of any other dimension.
-/

namespace Autocomp.DecisionTree

open ByteMemory Loop TextStream

/-- The mark of a leaf in the arrays of features. -/
def TREE_UNDEFINED : Int := -2

/-- A position in the arrays of `tree_`. -/
structure FittedNode where
  childLeft : Int
  childRight : Int
  feature : Int
  threshold : ℚ
  value : List ℚ

def argmax (xs : List ℚ) : Nat := xs.findIdx fun x => xs.all fun y => y ≤ x

/-- `np.unique` without the mark of the leaves, of which the length is used. -/
def usedFeatures (nodes : List FittedNode) : List Int :=
  (nodes.map FittedNode.feature).dedup.filter (· ≠ TREE_UNDEFINED)

/-- A row of the `csv` writer. -/
def writerow (fields : List ByteString) : ByteString := List.intercalate [32] fields ++ [13, 10]

def nodeInfo (text : ℚ → ByteString) (node : FittedNode) : List ByteString :=
  [intText node.childLeft, intText node.childRight, intText node.feature, text node.threshold,
    decimal (argmax node.value)]

/-- `save_decision_tree`, given how thresholds are written. -/
def saveDecisionTree (text : ℚ → ByteString) (nodes : List FittedNode) (labels : List ByteString) :
    ByteString :=
  writerow [decimal labels.length] ++ (writerow labels ++ (writerow
    [decimal (usedFeatures nodes).length] ++ (writerow [decimal nodes.length] ++
      nodes.flatMap fun node => writerow (nodeInfo text node))))

/-- A label: the name of a compressor in either case, and a level. -/
structure Label where
  name : ByteString
  compressor : Compressor
  level : Option Int
  name_eq : name.map toupper = compressor.name
  level_int : ∀ l, level = some l → -2 ^ 31 ≤ l ∧ l < 2 ^ 31

def Label.text (label : Label) : ByteString :=
  label.name ++ match label.level with
    | none => []
    | some level => 95 :: intText level

/-- The compressor and the level that the label is for. -/
def Label.meaning (label : Label) : Compressor × Int := (label.compressor, label.level.getD (-1))

/-- A binary decision tree over three features. -/
inductive Tree where
  | leaf (label : Nat)
  | split (feature : Fin 3) (threshold : ℚ) (left right : Tree)

/-- The rule of the tree: left exactly if the feature is at most the threshold. -/
def Tree.decide (point : Fin 3 → ℚ) : Tree → Nat
  | leaf label => label
  | split feature threshold left right =>
    if point feature ≤ threshold then left.decide point else right.decide point

/-- The node at an index is the root of a tree. The two children of a node are different. -/
inductive Represents (nodes : List FittedNode) : Nat → Tree → Prop
  | leaf {i : Nat} {node : FittedNode} (hnode : nodes[i]? = some node)
      (hleft : node.childLeft = -1) (hright : node.childRight = -1) :
      Represents nodes i (.leaf (argmax node.value))
  | split {i l r : Nat} {node : FittedNode} {feature : Fin 3} {left right : Tree}
      (hnode : nodes[i]? = some node) (hl : node.childLeft = l) (hr : node.childRight = r)
      (hne : l ≠ r) (hfeature : node.feature = feature.val) (hleft : Represents nodes l left)
      (hright : Represents nodes r right) :
      Represents nodes i (.split feature node.threshold left right)

/-- The arrays of a tree with `nClasses` labels. -/
structure FittedNode.Fits (nNodes nClasses : Nat) (node : FittedNode) : Prop where
  children : (node.childLeft = -1 ∧ node.childRight = -1 ∧ node.feature = TREE_UNDEFINED) ∨
    ((0 ≤ node.childLeft ∧ node.childLeft < nNodes) ∧
      (0 ≤ node.childRight ∧ node.childRight < nNodes) ∧
      (0 ≤ node.feature ∧ node.feature < 3))
  classes : node.value.length = nClasses
  nonempty : node.value ≠ []

/-- A fitted tree and its labels. -/
structure Fitted where
  nodes : List FittedNode
  labels : List Label
  tree : Tree
  represents : Represents nodes 0 tree
  fits : ∀ node ∈ nodes, node.Fits nodes.length labels.length

def Fitted.file (fitted : Fitted) (text : ℚ → ByteString) : ByteString :=
  saveDecisionTree text fitted.nodes (fitted.labels.map Label.text)

/-- A text that is read as a number, within a line. -/
structure ReadBack (text : ByteString) (x : ℚ) : Prop where
  line : (10 : Byte) ∉ text
  read : ∀ rest, (IStream.ofText (32 :: (text ++ 32 :: rest))).readFloat =
    (x, IStream.ofText (32 :: rest))

theorem toupper_of_not_lower {c : Byte} (h : ¬ (97 ≤ c.toNat ∧ c.toNat ≤ 122)) : toupper c = c := by
  rw [toupper, if_neg h]

theorem name_chars (compressor : Compressor) :
    ∀ c ∈ compressor.name, c ≠ 95 ∧ isSpace c = false := by
  cases compressor <;> decide

theorem isSpace_le {c : Byte} (h : isSpace c = true) : c.toNat ≤ 32 := by
  rw [isSpace, Bool.or_eq_true, decide_eq_true_iff, Bool.and_eq_true, decide_eq_true_iff,
    decide_eq_true_iff] at h
  rcases h with rfl | h
  · decide
  · omega

theorem Label.name_chars (label : Label) : ∀ c ∈ label.name, c ≠ 95 ∧ isSpace c = false := by
  intro c hc
  have hupper : toupper c ∈ label.compressor.name := by
    rw [← label.name_eq]
    exact List.mem_map_of_mem hc
  have hchars := DecisionTree.name_chars label.compressor _ hupper
  constructor
  · rintro rfl
    exact hchars.1 rfl
  · cases hspace : isSpace c with
    | false => rfl
    | true =>
      have hle := isSpace_le hspace
      rw [toupper_of_not_lower (by omega), hspace] at hchars
      exact absurd hchars.2 (by simp)

theorem parse_name (compressor : Compressor) :
    Compressor.parse compressor.name = some compressor := by
  cases compressor <;> decide

theorem stoi_intText {x : Int} (hx : -2 ^ 31 ≤ x ∧ x < 2 ^ 31) : stoi (intText x) = some x := by
  obtain ⟨c, rest, htext, hc⟩ := intText_head x
  have hdrop : (intText x).dropWhile isSpace = intText x := by
    rw [htext, List.dropWhile_cons_of_neg (by simp [hc])]
  have hsign : takeSign (intText x) = (decide (x < 0), decimal x.natAbs) := by
    have happend := takeSign_intText x []
    rwa [List.append_nil, List.append_nil] at happend
  have htake : (decimal x.natAbs).takeWhile isDigit = decimal x.natAbs :=
    List.takeWhile_eq_self_iff.mpr (decimal_isDigit _)
  unfold stoi
  simp only [hdrop, hsign, htake, decimalValue_decimal]
  rw [signed_natAbs, if_neg]
  intro hout
  rcases hout with hnil | hlow | hhigh
  · exact decimal_ne_nil _ hnil
  · omega
  · omega

theorem parseCompressor_text (label : Label) :
    parseCompressor label.text = some label.meaning := by
  have hstop : ∀ c ∈ label.name, decide (c ≠ 95) = true := by
    intro c hc
    exact decide_eq_true (label.name_chars c hc).1
  cases hlevel : label.level with
  | none =>
    have htext : label.text = label.name := by simp [Label.text, hlevel]
    have htake := List.takeWhile_eq_self_iff.mpr hstop
    have hdrop := List.dropWhile_eq_nil_iff.mpr hstop
    simp only [parseCompressor, htext, htake, hdrop, label.name_eq, parse_name, Option.map_some]
    simp [Label.meaning, hlevel]
  | some level =>
    have htext : label.text = label.name ++ 95 :: intText level := by simp [Label.text, hlevel]
    have hend : decide ((95 : Byte) ≠ 95) = false := by decide
    obtain ⟨htake, hdrop⟩ := takeWhile_append_stop hstop hend (intText level)
    have hlevelText := stoi_intText (label.level_int level hlevel)
    simp only [parseCompressor, htext, htake, hdrop, label.name_eq, parse_name, hlevelText,
      Option.map_some]
    simp [Label.meaning, hlevel]

theorem parseCompressors_text (labels : List Label) :
    parseCompressors (labels.map Label.text) = some (labels.map Label.meaning) := by
  induction labels with
  | nil => rfl
  | cons label labels ih =>
    rw [parseCompressors] at ih ⊢
    simp [parseCompressor_text, ih]

theorem intText_chars (x : Int) : ∀ c ∈ intText x, isSpace c = false := by
  intro c hc
  unfold intText at hc
  split at hc
  · rcases List.mem_cons.mp hc with rfl | hc
    · decide
    · exact (isDigit_facts (decimal_isDigit _ c hc)).2.2
  · exact (isDigit_facts (decimal_isDigit _ c hc)).2.2

theorem Label.text_chars (label : Label) : label.text ≠ [] ∧ ∀ c ∈ label.text, isSpace c = false := by
  constructor
  · intro hnil
    have hname := (List.append_eq_nil_iff.mp hnil).1
    have hupper := label.name_eq
    rw [hname, List.map_nil] at hupper
    cases hcompressor : label.compressor <;> rw [hcompressor] at hupper <;>
      exact absurd hupper (by decide)
  · intro c hc
    rw [Label.text, List.mem_append] at hc
    rcases hc with hc | hc
    · exact (label.name_chars c hc).2
    · cases hlevel : label.level with
      | none => simp [hlevel] at hc
      | some level =>
        simp only [hlevel, List.mem_cons] at hc
        rcases hc with rfl | hc
        · decide
        · exact intText_chars level c hc

theorem none_isSpace : ∀ c ∈ ([] : ByteString), isSpace c = true := by simp

theorem space_isSpace : ∀ c ∈ ([32] : ByteString), isSpace c = true := by decide

theorem newline_isSpace : ∀ c ∈ ([13, 10] : ByteString), isSpace c = true := by decide

theorem checkInputStream_text (text a : ByteString) :
    checkInputStream (IStream.ofText text) a = .ok () :=
  checkInputStream_ok.mpr rfl

theorem readLabels_row {words : List ByteString} (hne : words ≠ [])
    (hwords : ∀ word ∈ words, word ≠ [] ∧ ∀ c ∈ word, isSpace c = false) {spaces : ByteString}
    (hspaces : ∀ c ∈ spaces, isSpace c = true) (rest : ByteString) :
    readLabels words.length (IStream.ofText (spaces ++ (List.intercalate [32] words ++
      13 :: rest))) = .ok (words, IStream.ofText (13 :: rest)) := by
  induction words generalizing spaces with
  | nil => contradiction
  | cons word words ih =>
    obtain ⟨hword, hchars⟩ := hwords word (List.mem_cons_self ..)
    cases words with
    | nil =>
      have hread := IStream.readWord_text hword hchars hspaces (c := 13) (by decide) rest
      simp only [List.length_cons, List.length_nil, List.intercalate_singleton, readLabels, hread,
        checkInputStream_text]
      rfl
    | cons next words =>
      have hread := IStream.readWord_text hword hchars hspaces (c := 32) (by decide)
        (List.intercalate [32] (next :: words) ++ 13 :: rest)
      have hrest := ih (by simp) (fun w hw => hwords w (List.mem_cons_of_mem _ hw)) space_isSpace
      rw [List.singleton_append] at hrest
      rw [List.length_cons, List.intercalate_cons_cons, List.append_assoc, List.append_assoc,
        List.singleton_append, readLabels]
      simp only [hread, checkInputStream_text]
      change readLabels _ _ >>= _ = _
      rw [hrest]
      rfl

def FittedNode.saved (node : FittedNode) : Node where
  leftChild := node.childLeft
  rightChild := node.childRight
  feature := node.feature
  threshold := node.threshold
  value := argmax node.value

theorem argmax_lt {xs : List ℚ} (h : xs ≠ []) : argmax xs < xs.length := by
  have hnonempty : xs.toFinset.Nonempty := List.toFinset_nonempty_iff xs |>.mpr h
  obtain ⟨x, hx, hmax⟩ := Finset.exists_max_image xs.toFinset id hnonempty
  apply List.findIdx_lt_length.mpr
  use x, List.mem_toFinset.mp hx
  rw [List.all_eq_true]
  intro y hy
  exact decide_eq_true (hmax y (List.mem_toFinset.mpr hy))

theorem intText_natCast (n : Nat) : intText (n : Int) = decimal n := by
  rw [intText, if_neg (by omega), Int.natAbs_natCast]

def nodeLine (text : ℚ → ByteString) (node : FittedNode) : ByteString :=
  intText node.childLeft ++ 32 :: (intText node.childRight ++ 32 :: (intText node.feature ++
    32 :: (text node.threshold ++ 32 :: (decimal (argmax node.value) ++ [13]))))

theorem writerow_nodeInfo (text : ℚ → ByteString) (node : FittedNode) :
    writerow (nodeInfo text node) = nodeLine text node ++ [10] := by
  simp [writerow, nodeInfo, nodeLine, List.intercalate, List.intersperse]

structure FittedNode.Bounded (node : FittedNode) : Prop where
  childLeft : -2 ^ 31 ≤ node.childLeft ∧ node.childLeft < 2 ^ 31
  childRight : -2 ^ 31 ≤ node.childRight ∧ node.childRight < 2 ^ 31
  feature : -2 ^ 31 ≤ node.feature ∧ node.feature < 2 ^ 31
  value : argmax node.value < 2 ^ 31

theorem FittedNode.Fits.bounded {node : FittedNode} {nNodes nClasses : Nat}
    (h : node.Fits nNodes nClasses) (hnodes : nNodes ≤ 2 ^ 31) (hclasses : nClasses < 2 ^ 31) :
    node.Bounded := by
  have hvalue := argmax_lt h.nonempty
  rw [h.classes] at hvalue
  have hundefined : TREE_UNDEFINED = -2 := rfl
  rcases h.children with ⟨hleft, hright, hfeature⟩ | ⟨hleft, hright, hfeature⟩
  · constructor <;> omega
  · constructor <;> omega

theorem readNode_saved {text : ℚ → ByteString} {node : FittedNode} (hbounded : node.Bounded)
    (htext : ReadBack (text node.threshold) node.threshold) :
    readNode (nodeLine text node) = .ok node.saved := by
  have hdigit : isDigit 32 = false := by decide
  have hleft := IStream.readInt_intText hbounded.childLeft none_isSpace hdigit
    (intText node.childRight ++ 32 :: (intText node.feature ++ 32 :: (text node.threshold ++
      32 :: (decimal (argmax node.value) ++ [13]))))
  have hright := IStream.readInt_intText hbounded.childRight space_isSpace hdigit
    (intText node.feature ++ 32 :: (text node.threshold ++
      32 :: (decimal (argmax node.value) ++ [13])))
  have hfeature := IStream.readInt_intText hbounded.feature space_isSpace hdigit
    (text node.threshold ++ 32 :: (decimal (argmax node.value) ++ [13]))
  have hthreshold := htext.read (decimal (argmax node.value) ++ [13])
  have hvalue := IStream.readInt_intText (x := argmax node.value)
    ⟨by omega, by have := hbounded.value; omega⟩ space_isSpace (c := 13) (by decide) []
  rw [List.nil_append] at hleft
  rw [List.singleton_append] at hright hfeature hvalue
  rw [intText_natCast] at hvalue
  simp only [readNode, nodeLine, hleft, hright, hfeature, hthreshold, hvalue,
    checkInputStream_text]
  rfl

theorem isSpace_newline_not_mem {line : ByteString} (h : ∀ c ∈ line, isSpace c = false) :
    (10 : Byte) ∉ line := by
  intro hmem
  exact absurd (h 10 hmem) (by decide)

theorem nodeLine_chars {text : ℚ → ByteString} {node : FittedNode}
    (htext : ReadBack (text node.threshold) node.threshold) :
    (10 : Byte) ∉ nodeLine text node := by
  have hint := fun x => isSpace_newline_not_mem (intText_chars x)
  have hvalue := hint (argmax node.value)
  rw [intText_natCast] at hvalue
  simp only [nodeLine, List.mem_append, List.mem_cons, not_or]
  refine ⟨hint _, by decide, hint _, by decide, hint _, by decide, htext.line, by decide, hvalue, ?_⟩
  simp

theorem readNodes_saved {text : ℚ → ByteString} {nodes : List FittedNode}
    (hnodes : ∀ node ∈ nodes, node.Bounded ∧ ReadBack (text node.threshold) node.threshold) :
    readNodes nodes.length (IStream.ofText (nodes.flatMap fun node =>
      writerow (nodeInfo text node))) = .ok (nodes.map FittedNode.saved) := by
  induction nodes with
  | nil => rfl
  | cons node nodes ih =>
    obtain ⟨hbounded, htext⟩ := hnodes node (List.mem_cons_self ..)
    have hline := IStream.getline_text (nodeLine_chars htext)
      (nodes.flatMap fun node => writerow (nodeInfo text node))
    rw [List.flatMap_cons, writerow_nodeInfo, List.append_assoc, List.singleton_append,
      List.length_cons, readNodes]
    simp only [hline, checkInputStream_text, readNode_saved hbounded htext]
    change readNodes _ _ >>= _ = _
    rw [ih fun node hnode => hnodes node (List.mem_cons_of_mem _ hnode)]
    rfl

section

variable {fitted : Fitted} (allocates : Nat → Bool) (filename : ByteString) (text : ℚ → ByteString)

def Fitted.rows (fitted : Fitted) (text : ℚ → ByteString) : ByteString :=
  fitted.nodes.flatMap fun node => writerow (nodeInfo text node)

def Fitted.counts (fitted : Fitted) (text : ℚ → ByteString) : ByteString :=
  decimal (usedFeatures fitted.nodes).length ++
    13 :: 10 :: (decimal fitted.nodes.length ++ 13 :: 10 :: fitted.rows text)

theorem Fitted.file_eq : fitted.file text = decimal fitted.labels.length ++ 13 :: 10 ::
    (List.intercalate [32] (fitted.labels.map Label.text) ++ 13 :: 10 :: fitted.counts text) := by
  simp [Fitted.file, saveDecisionTree, writerow, Fitted.counts, Fitted.rows]

theorem Fitted.nodes_ne_nil (fitted : Fitted) : fitted.nodes ≠ [] := by
  have hroot : ∀ {nodes tree}, Represents nodes 0 tree → nodes ≠ [] := by
    intro nodes tree hrepresents hnil
    rw [hnil] at hrepresents
    cases hrepresents <;> contradiction
  exact hroot fitted.represents

theorem Fitted.rows_ne_nil (fitted : Fitted) (text : ℚ → ByteString) : fitted.rows text ≠ [] := by
  obtain ⟨node, nodes, hnodes⟩ := List.exists_cons_of_ne_nil fitted.nodes_ne_nil
  rw [Fitted.rows, hnodes, List.flatMap_cons, writerow]
  simp

theorem Fitted.labels_ne_nil (fitted : Fitted) : fitted.labels ≠ [] := by
  obtain ⟨node, nodes, hnodes⟩ := List.exists_cons_of_ne_nil fitted.nodes_ne_nil
  have hfits := fitted.fits node (by simp [hnodes])
  have hclasses := hfits.classes
  intro hnil
  rw [hnil] at hclasses
  exact hfits.nonempty (List.length_eq_zero_iff.mp hclasses)

theorem usedFeatures_length_le (fitted : Fitted) : (usedFeatures fitted.nodes).length ≤ 3 := by
  have hnodup : (usedFeatures fitted.nodes).Nodup := (List.nodup_dedup _).filter _
  have hsubset : usedFeatures fitted.nodes ⊆ [0, 1, 2] := by
    intro feature hfeature
    rw [usedFeatures, List.mem_filter, List.mem_dedup, List.mem_map, decide_eq_true_iff] at hfeature
    obtain ⟨⟨node, hnode, rfl⟩, hdefined⟩ := hfeature
    rcases (fitted.fits node hnode).children with hleaf | hinner
    · exact absurd hleaf.2.2 hdefined
    · simp only [List.mem_cons, List.not_mem_nil, or_false]
      omega
  exact (hnodup.subperm hsubset).length_le

theorem readCounts_saved (hnodes : fitted.nodes.length < 2 ^ 64) :
    readCounts filename (fitted.labels.map Label.text)
        (IStream.ofText (13 :: 10 :: fitted.counts text)) =
      .ok ⟨fitted.labels.map Label.meaning, (usedFeatures fitted.nodes).length,
        fitted.nodes.length, IStream.ofText (fitted.rows text)⟩ := by
  have hused := usedFeatures_length_le fitted
  have hfeatures := IStream.readUnsigned_decimal
    (show (usedFeatures fitted.nodes).length < 2 ^ 32 by omega) newline_isSpace (c := 13)
    (by decide) (10 :: (decimal fitted.nodes.length ++ 13 :: 10 :: fitted.rows text))
  have hcount := IStream.readUnsigned_decimal hnodes newline_isSpace (c := 13) (by decide)
    (10 :: fitted.rows text)
  obtain ⟨c, rest, hrows⟩ := List.exists_cons_of_ne_nil (fitted.rows_ne_nil text)
  have hignore : (IStream.ofText (13 :: 10 :: fitted.rows text)).ignore 2 =
      IStream.ofText (fitted.rows text) := by
    rw [hrows]
    rfl
  simp only [List.cons_append, List.nil_append] at hfeatures hcount
  simp only [readCounts, parseCompressors_text, Fitted.counts, hfeatures, hcount,
    checkInputStream_text, hignore]
  rfl

theorem readCounts_many (hnodes : 2 ^ 64 ≤ fitted.nodes.length) (header : Header) :
    readCounts filename (fitted.labels.map Label.text)
        (IStream.ofText (13 :: 10 :: fitted.counts text)) ≠ .ok header := by
  have hused := usedFeatures_length_le fitted
  have hfeatures := IStream.readUnsigned_decimal
    (show (usedFeatures fitted.nodes).length < 2 ^ 32 by omega) newline_isSpace (c := 13)
    (by decide) (10 :: (decimal fitted.nodes.length ++ 13 :: 10 :: fitted.rows text))
  have hcount := IStream.readUnsigned_large hnodes newline_isSpace (c := 13) (by decide)
    (10 :: fitted.rows text)
  simp only [List.cons_append, List.nil_append] at hfeatures hcount
  simp only [readCounts, parseCompressors_text, Fitted.counts, hfeatures, checkInputStream_text]
  change checkInputStream _ _ >>= _ ≠ _
  rw [checkInputStream, if_neg (Bool.eq_false_iff.mp hcount)]
  intro h
  contradiction

theorem Fitted.labels_chars (fitted : Fitted) :
    ∀ word ∈ fitted.labels.map Label.text, word ≠ [] ∧ ∀ c ∈ word, isSpace c = false := by
  intro word hword
  obtain ⟨label, -, rfl⟩ := List.mem_map.mp hword
  exact label.text_chars

theorem readHeader_saved (hlabels : fitted.labels.length < 2 ^ 31) :
    readHeader allocates filename (fitted.file text) =
      vectorOf allocates 32 fitted.labels.length >>= fun _ =>
        readCounts filename (fitted.labels.map Label.text)
          (IStream.ofText (13 :: 10 :: fitted.counts text)) := by
  have hint : -2 ^ 31 ≤ (fitted.labels.length : Int) ∧ (fitted.labels.length : Int) < 2 ^ 31 := by
    omega
  have hcount := IStream.readInt_intText hint none_isSpace (c := 13) (by decide)
    (10 :: (List.intercalate [32] (fitted.labels.map Label.text) ++
      13 :: 10 :: fitted.counts text))
  have hne : fitted.labels.map Label.text ≠ [] := by simp [fitted.labels_ne_nil]
  have hlabel := readLabels_row hne fitted.labels_chars newline_isSpace
    (10 :: fitted.counts text)
  have hsize : ((fitted.labels.length : Int) % 2 ^ 64).toNat = fitted.labels.length := by omega
  rw [List.nil_append, intText_natCast] at hcount
  rw [List.length_map] at hlabel
  rw [readHeader_eq, fitted.file_eq, hcount]
  simp only [checkInputStream_text, Int.toNat_natCast, hsize]
  simp only [List.cons_append, List.nil_append] at hlabel
  rw [hlabel]
  rfl

theorem readHeader_many (hlabels : 2 ^ 31 ≤ fitted.labels.length) (header : Header) :
    readHeader allocates filename (fitted.file text) ≠ .ok header := by
  have hcount := IStream.readInt_large hlabels (c := 13) (by decide)
    (10 :: (List.intercalate [32] (fitted.labels.map Label.text) ++
      13 :: 10 :: fitted.counts text))
  rw [readHeader_eq, fitted.file_eq, checkInputStream, if_neg (Bool.eq_false_iff.mp hcount)]
  intro h
  contradiction

/-- There is memory for the labels and for the nodes. -/
def Fitted.Allocated (fitted : Fitted) (allocates : Nat → Bool) : Prop :=
  allocates (fitted.labels.length * 32) = true ∧ allocates (fitted.nodes.length * 20) = true

def Fitted.saved (fitted : Fitted) : DecisionTree :=
  ⟨fitted.nodes.map FittedNode.saved, fitted.labels.map Label.meaning,
    (usedFeatures fitted.nodes).length⟩

theorem new_many (hlabels : fitted.labels.length < 2 ^ 31) (hnodes : 2 ^ 31 ≤ fitted.nodes.length)
    (tree : DecisionTree) : new allocates filename (some (fitted.file text)) ≠ .ok tree := by
  intro hnew
  rw [new_eq, bind_eq_ok, readHeader_saved allocates filename text hlabels] at hnew
  obtain ⟨header, hheader, hnew⟩ := hnew
  obtain ⟨_, -, hcounts⟩ := bind_eq_ok.mp hheader
  have hsize : fitted.nodes.length < 2 ^ 64 := by
    by_contra hlarge
    exact readCounts_many filename text (Nat.not_lt.mp hlarge) header hcounts
  rw [readCounts_saved filename text hsize, Except.ok.injEq] at hcounts
  obtain ⟨_, -, hnew⟩ := bind_eq_ok.mp hnew
  obtain ⟨nodes, -, hnew⟩ := bind_eq_ok.mp hnew
  rw [← hcounts, if_pos hnodes] at hnew
  contradiction

/-- A saved file is accepted exactly if its counts are small enough and there is memory, and gives one
tree. -/
theorem new_saved (htext : ∀ node ∈ fitted.nodes, ReadBack (text node.threshold) node.threshold)
    (tree : DecisionTree) : new allocates filename (some (fitted.file text)) = .ok tree ↔
      fitted.labels.length < 2 ^ 31 ∧ fitted.nodes.length < 2 ^ 31 ∧ fitted.Allocated allocates ∧
        tree = fitted.saved := by
  by_cases hlabels : fitted.labels.length < 2 ^ 31
  · by_cases hnodes : fitted.nodes.length < 2 ^ 31
    · have hbounded : ∀ node ∈ fitted.nodes, node.Bounded ∧
          ReadBack (text node.threshold) node.threshold := by
        intro node hnode
        exact ⟨(fitted.fits node hnode).bounded hnodes.le hlabels, htext node hnode⟩
      have hread : readNodes fitted.nodes.length (IStream.ofText (fitted.rows text)) = _ :=
        readNodes_saved hbounded
      have hlabelsSize : Constructible allocates 32 fitted.labels.length ↔
          allocates (fitted.labels.length * 32) = true := by
        simp only [Constructible, List.length_eq_zero_iff, fitted.labels_ne_nil, false_or]
        exact and_iff_right (by omega)
      have hnodesSize : Constructible allocates 20 fitted.nodes.length ↔
          allocates (fitted.nodes.length * 20) = true := by
        simp only [Constructible, List.length_eq_zero_iff, fitted.nodes_ne_nil, false_or]
        exact and_iff_right (by omega)
      rw [new_eq, readHeader_saved allocates filename text hlabels,
        readCounts_saved filename text (by omega)]
      simp only [bind_eq_ok, vectorOf_ok, hlabelsSize]
      constructor
      · rintro ⟨header, ⟨-, hl, hheader⟩, -, hn, nodes, hrows, h⟩
        rw [← Except.ok.inj hheader] at hn hrows h
        rw [Nat.min_eq_left hnodes.le, hread, Except.ok.injEq] at hrows
        rw [if_neg (Nat.not_le.mpr hnodes), ← hrows] at h
        exact ⟨hlabels, hnodes, ⟨hl, hnodesSize.mp hn⟩, (Except.ok.inj h).symm⟩
      · rintro ⟨-, -, ⟨hl, hn⟩, rfl⟩
        refine ⟨_, ⟨(), hl, rfl⟩, (), hnodesSize.mpr hn, fitted.nodes.map FittedNode.saved, ?_, ?_⟩
        · rw [Nat.min_eq_left hnodes.le]
          exact hread
        · exact if_neg (Nat.not_le.mpr hnodes)
    · apply iff_of_false
      · exact new_many allocates filename text hlabels (Nat.not_lt.mp hnodes) tree
      · exact fun h => hnodes h.2.1
  · apply iff_of_false
    · intro hnew
      rw [new_eq, bind_eq_ok] at hnew
      obtain ⟨header, hheader, -⟩ := hnew
      exact readHeader_many allocates filename text (Nat.not_lt.mp hlabels) header hheader
    · exact fun h => hlabels h.1

end

/-! ## The tree that was saved -/

def IsPoint3 (point : Fin 3 → Int) : Prop := ∀ i, -2 ^ 31 ≤ point i ∧ point i < 2 ^ 31

/-- A point as it is compared with the thresholds. -/
def rounded (point : Fin 3 → Int) (i : Fin 3) : ℚ := SinglePrecision.ofInt (point i)

/-- The compressor and the level that the tree decides for. -/
def Fitted.decision (fitted : Fitted) (point : Fin 3 → ℚ) : Option (Compressor × Int) :=
  fitted.labels[fitted.tree.decide point]?.map Label.meaning

/-- The saved file is accepted, and `classify` decides for every point as the tree does. -/
def Fitted.Preserved (fitted : Fitted) (allocates : Nat → Bool) (filename : ByteString)
    (text : ℚ → ByteString) : Prop :=
  ∃ tree, new allocates filename (some (fitted.file text)) = .ok tree ∧
    ∀ point, IsPoint3 point → ∃ compressor,
      fitted.decision (fun i => point i) = some compressor ∧
      Yields (classify tree (List.ofFn point)) (.ok compressor)

theorem Fitted.saved_at {fitted : Fitted} {i : Nat} {node : FittedNode}
    (hnode : fitted.nodes[i]? = some node) : at? fitted.saved.nodes i = some node.saved := by
  rw [at?, if_neg (by omega), Int.toNat_natCast, Fitted.saved, List.getElem?_map, hnode]
  rfl

theorem at?_ofFn (point : Fin 3 → Int) (i : Fin 3) :
    at? (List.ofFn point) (i.val : Int) = some (point i) := by
  rw [at?, if_neg (by omega), Int.toNat_natCast, List.getElem?_ofFn]
  simp

/-- The walk through the saved nodes decides a rounded point as the tree does. -/
theorem Represents.walk_saved {fitted : Fitted} {i : Nat} {tree : Tree}
    (h : Represents fitted.nodes i tree) (point : Fin 3 → Int) :
    ∃ label, fitted.labels[tree.decide (rounded point)]? = some label ∧
      Yields (fun fuel => walk fitted.saved (List.ofFn point) fuel i) (.ok label.meaning) := by
  induction h with
  | @leaf i node hnode hleft hright =>
    have hfits := fitted.fits node (List.mem_of_getElem? hnode)
    have hlt := argmax_lt hfits.nonempty
    rw [hfits.classes] at hlt
    have hlabel := List.getElem?_eq_getElem hlt
    have hleaf : node.saved.isLeaf = true := decide_eq_true (hleft.trans hright.symm)
    have hvalue : at? fitted.saved.compressors node.saved.value =
        some fitted.labels[argmax node.value].meaning := by
      change at? (fitted.labels.map Label.meaning) (argmax node.value : Int) = _
      rw [at?, if_neg (by omega), Int.toNat_natCast, List.getElem?_map, hlabel]
      rfl
    refine ⟨_, hlabel, 1, ?_⟩
    intro fuel hfuel
    rw [← Nat.sub_add_cancel hfuel]
    exact walk_leaf (Fitted.saved_at hnode) hleaf hvalue _
  | @split i l r node feature left right hnode hl hr hne hfeature _ _ ihleft ihright =>
    have hinner : node.saved.isLeaf = false := by
      apply decide_eq_false
      change ¬ node.childLeft = node.childRight
      omega
    have hx : at? (List.ofFn point) node.saved.feature = some (point feature) := by
      rw [← at?_ofFn, ← hfeature]
      rfl
    have hstep := walk_step (Fitted.saved_at hnode) hinner hx
    have hmore : ∀ {k : Nat} {label : Label}, node.saved.child (point feature) = k →
        Yields (fun fuel => walk fitted.saved (List.ofFn point) fuel k) (.ok label.meaning) →
        Yields (fun fuel => walk fitted.saved (List.ofFn point) fuel i) (.ok label.meaning) := by
      intro k label hchild hyields
      obtain ⟨n, hn⟩ := hyields
      use n + 1
      intro fuel hfuel
      rw [← Nat.sub_add_cancel (Nat.le_of_add_left_le hfuel)]
      change walk _ _ (_ + 1) _ = _
      rw [hstep, hchild]
      exact hn _ (by omega)
    by_cases hle : rounded point feature ≤ node.threshold
    · obtain ⟨label, hlabel, hyields⟩ := ihleft
      have hdecide : (Tree.split feature node.threshold left right).decide (rounded point) =
          left.decide (rounded point) := by
        rw [Tree.decide, if_pos hle]
      rw [hdecide]
      refine ⟨label, hlabel, hmore ?_ hyields⟩
      rw [Node.child, ← hl]
      exact if_pos hle
    · obtain ⟨label, hlabel, hyields⟩ := ihright
      have hdecide : (Tree.split feature node.threshold left right).decide (rounded point) =
          right.decide (rounded point) := by
        rw [Tree.decide, if_neg hle]
      rw [hdecide]
      refine ⟨label, hlabel, hmore ?_ hyields⟩
      rw [Node.child, ← hr]
      exact if_neg hle

theorem Fitted.classify_saved {fitted : Fitted} (point : Fin 3 → Int) :
    ((usedFeatures fitted.nodes).length = 3 → classify fitted.saved (List.ofFn point) =
      fun fuel => walk fitted.saved (List.ofFn point) fuel 0) ∧
    ((usedFeatures fitted.nodes).length ≠ 3 → ∃ message, ∀ fuel,
      classify fitted.saved (List.ofFn point) fuel = some (.error (.invalidArgument message))) := by
  constructor
  · intro hused
    have heq : ¬ (List.ofFn point).length ≠ fitted.saved.nFeatures := by
      rw [List.length_ofFn]
      exact not_not_intro hused.symm
    funext fuel
    exact if_neg heq
  · intro hused
    have hne : (List.ofFn point).length ≠ fitted.saved.nFeatures := by
      rw [List.length_ofFn]
      exact hused.symm
    exact ⟨_, fun fuel => if_pos hne⟩

/-- Rounding changes no decision if all thresholds are small. -/
theorem Represents.decide_rounded {nodes : List FittedNode} {i : Nat} {tree : Tree}
    (h : Represents nodes i tree) (hsmall : ∀ node ∈ nodes, |node.threshold| < 2 ^ 24)
    (point : Fin 3 → Int) : tree.decide (rounded point) = tree.decide fun i => point i := by
  induction h with
  | leaf => rfl
  | split hnode _ _ _ _ _ _ ihleft ihright =>
    have hthreshold := hsmall _ (List.mem_of_getElem? hnode)
    rw [Tree.decide, Tree.decide, ihleft, ihright]
    exact if_congr (SinglePrecision.ofInt_le_iff hthreshold) rfl rfl

def sampleText (x : ℚ) : ByteString := if x = -2 then ascii "-2.0" else ascii "1.5"

def extracted (s : IStream) : Option ℚ → ℚ × IStream
  | none => (0, s.failed)
  | some value => (value, s)

theorem sampleText_leaf : ReadBack (sampleText (-2)) (-2) := by
  have htext : sampleText (-2) = ascii "-2.0" := if_pos rfl
  have hnearest : SinglePrecision.nearest (-2) = some (-2) := by
    apply SinglePrecision.nearest_exact (m := 8388608) (e := 1)
    · decide
    · decide
    · norm_num
  have hvalue : -((decimalValue (ascii "20") : ℚ) / 10 ^ 1) = -2 := by
    rw [show decimalValue (ascii "20") = 20 from rfl]
    norm_num
  rw [htext]
  constructor
  · decide
  · intro rest
    change extracted (IStream.after (32 :: rest))
      (SinglePrecision.nearest (-((decimalValue (ascii "20") : ℚ) / 10 ^ 1))) = _
    rw [hvalue, hnearest]
    rfl

theorem sampleText_split : ReadBack (sampleText (3 / 2)) (3 / 2) := by
  have htext : sampleText (3 / 2) = ascii "1.5" := if_neg (by norm_num)
  have hnearest : SinglePrecision.nearest (3 / 2) = some (3 / 2) := by
    apply SinglePrecision.nearest_exact (m := 12582912) (e := 0)
    · decide
    · decide
    · norm_num
  have hvalue : (decimalValue (ascii "15") : ℚ) / 10 ^ 1 = 3 / 2 := by
    rw [show decimalValue (ascii "15") = 15 from rfl]
    norm_num
  rw [htext]
  constructor
  · decide
  · intro rest
    change extracted (IStream.after (32 :: rest))
      (SinglePrecision.nearest ((decimalValue (ascii "15") : ℚ) / 10 ^ 1)) = _
    rw [hvalue, hnearest]
    rfl

def copyLabel : Label := ⟨ascii "copy", .COPY, none, rfl, by simp⟩

def zlibLabel : Label := ⟨ascii "zlib", .ZLIB, some 6, rfl, by simp⟩

def leafNode (value : List ℚ) : FittedNode := ⟨-1, -1, TREE_UNDEFINED, -2, value⟩

def splitNode (left right feature : Int) : FittedNode := ⟨left, right, feature, 3 / 2, [1, 1]⟩

def threeTests : Fitted where
  nodes := [splitNode 1 2 0, leafNode [1, 0], splitNode 3 4 1, leafNode [0, 1], splitNode 5 6 2,
    leafNode [1, 0], leafNode [0, 1]]
  labels := [copyLabel, zlibLabel]
  tree := .split 0 (3 / 2) (.leaf 0)
    (.split 1 (3 / 2) (.leaf 1) (.split 2 (3 / 2) (.leaf 0) (.leaf 1)))
  represents := by
    have hzero : argmax [1, 0] = 0 := by decide
    have hone : argmax [0, 1] = 1 := by decide
    have hleaf : ∀ {nodes : List FittedNode} {i : Nat} {value : List ℚ},
        nodes[i]? = some (leafNode value) → Represents nodes i (.leaf (argmax value)) :=
      fun hnode => .leaf hnode rfl rfl
    have hsplit : ∀ {nodes : List FittedNode} {i : Nat} (l r : Nat) (feature : Fin 3)
        {left right : Tree}, nodes[i]? = some (splitNode l r feature.val) → l ≠ r →
        Represents nodes l left → Represents nodes r right →
        Represents nodes i (.split feature (3 / 2) left right) :=
      fun _ _ _ _ _ hnode hne hleft hright => .split hnode rfl rfl hne rfl hleft hright
    rw [← hzero, ← hone]
    exact hsplit 1 2 0 rfl (by decide) (hleaf rfl) (hsplit 3 4 1 rfl (by decide) (hleaf rfl)
      (hsplit 5 6 2 rfl (by decide) (hleaf rfl) (hleaf rfl)))
  fits := by
    have hleaf : ∀ value : List ℚ, value.length = 2 → (leafNode value).Fits 7 2 := by
      intro value hvalue
      exact ⟨.inl ⟨rfl, rfl, rfl⟩, hvalue, by rintro rfl; contradiction⟩
    intro node hnode
    simp only [List.mem_cons, List.not_mem_nil, or_false] at hnode
    rcases hnode with rfl | rfl | rfl | rfl | rfl | rfl | rfl
    · exact ⟨.inr (by decide), rfl, by decide⟩
    · exact hleaf _ rfl
    · exact ⟨.inr (by decide), rfl, by decide⟩
    · exact hleaf _ rfl
    · exact ⟨.inr (by decide), rfl, by decide⟩
    · exact hleaf _ rfl
    · exact hleaf _ rfl

def singleLeaf : Fitted where
  nodes := [leafNode [1]]
  labels := [copyLabel]
  tree := .leaf (argmax [1])
  represents := Represents.leaf (show _ = some (leafNode [1]) from rfl) rfl rfl
  fits := by
    intro node hnode
    rw [List.mem_singleton] at hnode
    rw [hnode]
    exact ⟨.inl ⟨rfl, rfl, rfl⟩, rfl, by decide⟩

theorem threeTests_read : ∀ node ∈ threeTests.nodes,
    ReadBack (sampleText node.threshold) node.threshold := by
  intro node hnode
  simp only [threeTests, List.mem_cons, List.not_mem_nil, or_false] at hnode
  rcases hnode with rfl | rfl | rfl | rfl | rfl | rfl | rfl
  · exact sampleText_split
  · exact sampleText_leaf
  · exact sampleText_split
  · exact sampleText_leaf
  · exact sampleText_split
  · exact sampleText_leaf
  · exact sampleText_leaf

theorem threeTests_small : ∀ node ∈ threeTests.nodes, |node.threshold| < 2 ^ 24 := by
  norm_num [threeTests, splitNode, leafNode]

/-- A saved tree decides as the one it was saved from exactly if that one tests all three features,
its counts are small enough and there is memory for them, and rounding to a `float` changes none of
its decisions. -/
theorem preserved_iff (fitted : Fitted) (allocates : Nat → Bool) (filename : ByteString)
    (text : ℚ → ByteString)
    (htext : ∀ node ∈ fitted.nodes, ReadBack (text node.threshold) node.threshold) :
    fitted.Preserved allocates filename text ↔ (usedFeatures fitted.nodes).length = 3 ∧
      fitted.labels.length < 2 ^ 31 ∧ fitted.nodes.length < 2 ^ 31 ∧ fitted.Allocated allocates ∧
      ∀ point, IsPoint3 point →
        fitted.decision (rounded point) = fitted.decision (fun i => point i) := by
  have hwalk : ∀ point, ∃ label, fitted.decision (rounded point) = some label ∧
      Yields (fun fuel => walk fitted.saved (List.ofFn point) fuel 0) (.ok label) := by
    intro point
    obtain ⟨label, hlabel, hyields⟩ := fitted.represents.walk_saved point
    exact ⟨label.meaning, by rw [Fitted.decision, hlabel]; rfl, hyields⟩
  constructor
  · intro hpreserved
    obtain ⟨tree, hnew, hclassify⟩ := hpreserved
    obtain ⟨hlabels, hnodes, hmemory, rfl⟩ := (new_saved allocates filename text htext tree).mp hnew
    have hused : (usedFeatures fitted.nodes).length = 3 := by
      have hzero : IsPoint3 fun _ => 0 := fun _ => by norm_num
      obtain ⟨compressor, -, n, hn⟩ := hclassify _ hzero
      by_contra hused
      obtain ⟨message, hrefused⟩ := (fitted.classify_saved fun _ => 0).2 hused
      have hfuel := hn n le_rfl
      rw [hrefused n] at hfuel
      simp at hfuel
    refine ⟨hused, hlabels, hnodes, hmemory, ?_⟩
    intro point hpoint
    obtain ⟨compressor, hdecision, hyields⟩ := hclassify point hpoint
    obtain ⟨label, hlabel, hlabelYields⟩ := hwalk point
    rw [(fitted.classify_saved point).1 hused] at hyields
    rw [hlabel, hdecision, Except.ok.inj (hlabelYields.unique hyields)]
  · intro h
    obtain ⟨hused, hlabels, hnodes, hmemory, hrounded⟩ := h
    refine ⟨fitted.saved, (new_saved allocates filename text htext _).mpr
      ⟨hlabels, hnodes, hmemory, rfl⟩, ?_⟩
    intro point hpoint
    obtain ⟨label, hlabel, hyields⟩ := hwalk point
    use label, (hrounded point hpoint).symm.trans hlabel
    rwa [(fitted.classify_saved point).1 hused]

theorem threeTests_preserved :
    threeTests.Preserved (fun _ => true) (ascii "tree.txt") sampleText := by
  apply (preserved_iff threeTests (fun _ => true) (ascii "tree.txt") sampleText threeTests_read).mpr
  refine ⟨by decide, by decide, by decide, ⟨rfl, rfl⟩, ?_⟩
  intro point _
  rw [Fitted.decision, Fitted.decision,
    threeTests.represents.decide_rounded threeTests_small point]

/-- A tree of one leaf tests no feature: it is accepted, and every point is refused. -/
theorem singleLeaf_refused : (∀ node ∈ singleLeaf.nodes,
      ReadBack (sampleText node.threshold) node.threshold) ∧
    (∃ tree message,
      new (fun _ => true) (ascii "tree.txt") (some (singleLeaf.file sampleText)) = .ok tree ∧
      ∀ fuel, classify tree (List.ofFn fun _ : Fin 3 => 0) fuel =
        some (.error (.invalidArgument message))) ∧
    ¬ singleLeaf.Preserved (fun _ => true) (ascii "tree.txt") sampleText := by
  have hread : ∀ node ∈ singleLeaf.nodes,
      ReadBack (sampleText node.threshold) node.threshold := by
    intro node hnode
    rw [List.mem_singleton.mp hnode]
    exact sampleText_leaf
  have hnew := fun tree => new_saved (fun _ => true) (ascii "tree.txt") sampleText hread tree
  obtain ⟨message, hrefused⟩ := (singleLeaf.classify_saved fun _ => 0).2 (by decide)
  refine ⟨hread, ⟨_, message, (hnew _).mpr ⟨by decide, by decide, ⟨rfl, rfl⟩, rfl⟩, hrefused⟩, ?_⟩
  intro hpreserved
  obtain ⟨tree, htree, hclassify⟩ := hpreserved
  rw [((hnew tree).mp htree).2.2.2] at hclassify
  have hzero : IsPoint3 fun _ => 0 := fun _ => by norm_num
  obtain ⟨compressor, -, n, hn⟩ := hclassify _ hzero
  have hfuel := hn n le_rfl
  rw [hrefused n] at hfuel
  simp at hfuel

end Autocomp.DecisionTree
