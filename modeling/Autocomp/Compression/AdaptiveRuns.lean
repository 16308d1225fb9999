import Autocomp.Compression.Evaluations
import Autocomp.Compression.LibraryCodecs
import Autocomp.Utils.DecisionTree.Saving
import Mathlib.Data.Fin.VecNotation

/-!
# Runs of the adaptive compressor

A transfer is modelled with a strategy whose decisions are given. The process makes them while it
runs, with one tree and with static locals that all its requests share. What each object answers is a
run of such a strategy, whatever the other objects do in between, and every chunk that it compresses
on the libraries can be restored.
-/

namespace Autocomp.AutoCompCompressor

open DecisionTree Loop

/-- `classify` is what the walk through the tree comes to. -/
def Answers (tree : DecisionTree) (classify : Classifier) : Prop :=
  ∀ point : Fin 3 → Int, Yields (tree.classify (List.ofFn point)) (classify (List.ofFn point))

/-- The decisions that a tree with these labels can lead to. -/
inductive Possible (labels : List Label) : Decision → Prop
  | sendUncompressed : Possible labels .sendUncompressed
  | idle : Possible labels (.lookup .ZLIB 3)
  | named {label : Label} (hlabel : label ∈ labels) :
    Possible labels (.lookup label.meaning.1 label.meaning.2)

/-- Calls on some objects in the order in which the process makes them. -/
abbrev Calls (ι : Type) := List (ι × Attempt)

abbrev Outcome := Except Exn Compressor × Buffer

variable {ι : Type}

def outcomes (classify : Classifier) (codecs : Codecs) (s : Statics) :
    Calls ι → List (ι × Outcome)
  | [] => []
  | (i, a) :: calls =>
    let (result, outData, s) := attempt classify codecs s a
    (i, result, outData) :: outcomes classify codecs s calls

def strategyOutcomes (codecs : Codecs) (strategy : AutomaticCompressionStrategy) :
    List Attempt → List Outcome
  | [] => []
  | a :: attempts =>
    let (result, outData, strategy) := strategy.compress codecs a.inData a.outData
    (result, outData) :: strategyOutcomes codecs strategy attempts

def part {α : Type} [DecidableEq ι] (i : ι) (xs : List (ι × α)) : List α :=
  (xs.filter fun x => x.1 = i).map Prod.snd

/-- The chunk is sent as it is; or it is compressed as the tree or an idle send buffer says, and any
object of the compressor's class restores it; or the compressor failed with its own exception; or it
has written beyond the output, whose room it is not told. -/
inductive Sound (codecs : Codecs) (libraries : Libraries) (labels : List Label) (a : Attempt) :
    Outcome → Prop
  | copied : Sound codecs libraries labels a (.ok .COPY, a.outData)
  | compressed {compressor : Compressor} {level : Int} {compressed : Buffer}
    (hdecision : Possible labels (.lookup compressor level))
    (hkey : AutomaticCompressionStrategy.hasCompressor compressor level = true)
    (hrestores : ∀ level' restored, a.inData.contents.length ≤ restored.capacity →
      restored.capacity < 2 ^ 32 → ∃ result,
        (codecs.strategy compressor level').decompress (.ofBytes compressed.contents) restored =
          (.ok (), result) ∧ result.contents = a.inData.contents) :
    Sound codecs libraries labels a (.ok compressor, compressed)
  | failed {compressor : Compressor} {level : Int} {message : ByteString} {left : Buffer}
    (hdecision : Possible labels (.lookup compressor level))
    (hkey : AutomaticCompressionStrategy.hasCompressor compressor level = true) :
    Sound codecs libraries labels a
      (.error (compressor.compressionError a.inData a.outData message), left)
  | beyond {compressor : Compressor} {level : Int} {left : Buffer}
    (hdecision : Possible labels (.lookup compressor level))
    (hroom : ¬ libraries.HasRoom a.outData.capacity compressor level a.inData.contents) :
    Sound codecs libraries labels a (.error .undefinedBehaviour, left)

/-- The chunk and the output have sizes that all classes can count. -/
structure Counted (a : Attempt) : Prop where
  wellFormed : a.inData.WellFormed
  size_le : a.inData.contents.length ≤ countable
  capacity_le : a.outData.capacity ≤ countable

section

variable {classify : Classifier} {labels : List Label}

/-- The tree answers every point with one of its labels. -/
def Named (labels : List Label) (classify : Classifier) : Prop :=
  ∀ point : Fin 3 → Int, ∃ label ∈ labels, classify (List.ofFn point) = .ok label.meaning

theorem choose_possible (h : Named labels classify) (currentBytecounting : Nat) (call : Call) :
    ∃ d, choose classify currentBytecounting call = .ok d ∧ Possible labels d := by
  unfold choose
  by_cases hidle : call.sendBufferIdle = true
  · rw [if_pos hidle]
    exact ⟨_, rfl, .idle⟩
  · obtain ⟨label, hlabel, hclassify⟩ :=
      h ![call.cpuLoadLevel, call.bandwidthLevel, (currentBytecounting / 10 : Nat)]
    have hpoint : classify [call.cpuLoadLevel, call.bandwidthLevel,
        (currentBytecounting / 10 : Nat)] = .ok label.meaning := hclassify
    rw [if_neg hidle, hpoint]
    by_cases hcopy : label.meaning.1 = .COPY
    · refine ⟨.sendUncompressed, ?_, .sendUncompressed⟩
      simp only [Except.map, if_pos hcopy]
    · refine ⟨_, ?_, .named hlabel⟩
      simp only [Except.map, if_neg hcopy]

theorem compress_possible (h : Named labels classify) (s : Statics) (call : Call) :
    ∃ d, (compress classify s call).1 = .ok d ∧ Possible labels d := by
  rw [compress_counted]
  cases counted s call.inData with
  | none => exact ⟨_, rfl, .sendUncompressed⟩
  | some currentBytecounting => exact choose_possible h currentBytecounting call

variable (codecs : Codecs)

theorem attempt_eq {s : Statics} {a : Attempt} {d : Decision}
    (hd : (compress classify s a.call).1 = .ok d) :
    (attempt classify codecs s a).1 = (AutomaticCompressionStrategy.compress codecs a.inData
      a.outData (.autoComp fun _ => d)).1 ∧
    (attempt classify codecs s a).2.1 = (AutomaticCompressionStrategy.compress codecs a.inData
      a.outData (.autoComp fun _ => d)).2.1 := by
  unfold attempt
  rcases hcompress : compress classify s a.call with ⟨_ | d', t⟩
  · rw [hcompress] at hd
    contradiction
  · rw [hcompress] at hd
    rw [Except.ok.inj hd]
    exact ⟨rfl, rfl⟩

theorem compress_autoComp (inData outData : Buffer) (decisions : Nat → Decision) :
    AutomaticCompressionStrategy.compress codecs inData outData (.autoComp decisions) =
      ((AutomaticCompressionStrategy.compress codecs inData outData
          (.autoComp fun _ => decisions 0)).1,
        (AutomaticCompressionStrategy.compress codecs inData outData
          (.autoComp fun _ => decisions 0)).2.1, .autoComp fun n => decisions (n + 1)) := by
  have hnext : (AutomaticCompressionStrategy.autoComp decisions).next =
      ((AutomaticCompressionStrategy.autoComp fun _ => decisions 0).next.1,
        .autoComp fun n => decisions (n + 1)) := rfl
  unfold AutomaticCompressionStrategy.compress
  rw [hnext]
  rcases (AutomaticCompressionStrategy.autoComp fun _ => decisions 0).next with ⟨⟨c, level⟩, rest⟩
  dsimp only
  by_cases hcopy : c = .COPY
  · rw [if_pos hcopy, if_pos hcopy]
  · rw [if_neg hcopy, if_neg hcopy]
    rcases (codecs.strategy c level).compress inData outData with ⟨_ | _, output⟩ <;> rfl

theorem next_lookup {compressor : Compressor} {level : Int} :
    (AutomaticCompressionStrategy.autoComp fun _ => .lookup compressor level).next.1 =
      if AutomaticCompressionStrategy.hasCompressor compressor level then (compressor, level)
      else (.COPY, -1) := rfl

variable {libraries : Libraries} (hlibrary : codecs.library = libraries.library)
  (hdocumented : libraries.Documented)

include hlibrary hdocumented

theorem library_sound {compressor : Compressor} {level : Int}
    (hd : Possible labels (.lookup compressor level))
    (hkey : AutomaticCompressionStrategy.hasCompressor compressor level = true) {a : Attempt}
    (ha : Counted a) : ∃ result left,
      (codecs.strategy compressor level).compress a.inData a.outData = (result, left) ∧
      Sound codecs libraries labels a (result.map fun _ => compressor, left) := by
  have hfpc : compressor ≠ .FPC := by
    rintro rfl
    contradiction
  have hcopy : compressor ≠ .COPY := by
    rintro rfl
    contradiction
  have hwraps := hdocumented.wraps hfpc hcopy
  rw [codecs.strategy_library hfpc, hlibrary,
    library_ofBytes libraries compressor level ha.wellFormed]
  by_cases hroom : libraries.HasRoom a.outData.capacity compressor level a.inData.contents
  · rcases hwraps.compress_cases level a.inData.contents a.outData ha.size_le hroom with
      ⟨compressed, hgo, -, hle⟩ | ⟨message, left, hgo⟩
    · refine ⟨_, _, hgo, .compressed hd hkey fun level' restored hback hsmall => ?_⟩
      rw [codecs.strategy_library hfpc, hlibrary]
      exact hwraps.restores level level' a.inData.contents a.outData compressed restored ha.size_le
        hgo (hle.trans ha.capacity_le) hback hsmall
    · refine ⟨_, _, hgo, ?_⟩
      rw [← compressionError_ofBytes compressor ha.wellFormed]
      exact .failed hd hkey
  · obtain ⟨left, hgo⟩ := hwraps.compress_beyond level a.inData.contents a.outData hroom
    exact ⟨_, _, hgo, .beyond hd hroom⟩

theorem compress_sound {d : Decision} (hd : Possible labels d) {a : Attempt} (ha : Counted a) :
    Sound codecs libraries labels a
      ((AutomaticCompressionStrategy.compress codecs a.inData a.outData (.autoComp fun _ => d)).1,
        (AutomaticCompressionStrategy.compress codecs a.inData a.outData
          (.autoComp fun _ => d)).2.1) := by
  cases d with
  | sendUncompressed => exact .copied
  | lookup compressor level =>
    unfold AutomaticCompressionStrategy.compress
    by_cases hkey : AutomaticCompressionStrategy.hasCompressor compressor level = true
    · have hcopy : compressor ≠ .COPY := by
        rintro rfl
        contradiction
      obtain ⟨result, left, hgo, hsound⟩ :=
        library_sound codecs hlibrary hdocumented hd hkey ha
      simp only [next_lookup, if_pos hkey, if_neg hcopy, hgo]
      cases result with
      | ok => exact hsound
      | error x => exact hsound
    · simp only [next_lookup, if_neg hkey, if_true]
      exact .copied

end

section

variable {classify : Classifier} {labels : List Label} (hnamed : Named labels classify)
  (codecs : Codecs)

include hnamed

theorem outcomes_sound {libraries : Libraries} (hlibrary : codecs.library = libraries.library)
    (hdocumented : libraries.Documented) (s : Statics) {calls : Calls ι}
    (hcalls : ∀ call ∈ calls, Counted call.2) :
    List.Forall₂ (fun call outcome =>
        outcome.1 = call.1 ∧ Sound codecs libraries labels call.2 outcome.2)
      calls (outcomes classify codecs s calls) := by
  induction calls generalizing s with
  | nil => exact .nil
  | cons call calls ih =>
    rw [List.forall_mem_cons] at hcalls
    obtain ⟨d, hcompress, hd⟩ := compress_possible hnamed s call.2.call
    have hattempt := attempt_eq codecs hcompress
    have hsound := compress_sound codecs hlibrary hdocumented hd hcalls.1
    rw [← hattempt.1, ← hattempt.2] at hsound
    exact .cons ⟨rfl, hsound⟩ (ih _ hcalls.2)

def precede (d : Decision) (decisions : Nat → Decision) : Nat → Decision
  | 0 => d
  | n + 1 => decisions n

/-- The calls on the other objects change the static locals and with them the decisions, but leave
them the decisions of a strategy. -/
theorem part_outcomes [DecidableEq ι] (i : ι) (s : Statics) (calls : Calls ι) :
    ∃ decisions, (∀ n, Possible labels (decisions n)) ∧
      part i (outcomes classify codecs s calls) =
        strategyOutcomes codecs (.autoComp decisions) (part i calls) := by
  induction calls generalizing s with
  | nil => exact ⟨fun _ => .sendUncompressed, fun _ => .sendUncompressed, rfl⟩
  | cons call calls ih =>
    obtain ⟨j, a⟩ := call
    obtain ⟨decisions, hpossible, hrest⟩ := ih (attempt classify codecs s a).2.2
    by_cases hj : j = i
    · obtain ⟨d, hcompress, hd⟩ := compress_possible hnamed s a.call
      have hattempt := attempt_eq codecs hcompress
      use precede d decisions
      constructor
      · intro n
        cases n with
        | zero => exact hd
        | succ n => exact hpossible n
      · have hcalls : part i ((j, a) :: calls) = a :: part i calls := by
          simp [part, hj]
        have hout : part i (outcomes classify codecs s ((j, a) :: calls)) =
            ((attempt classify codecs s a).1, (attempt classify codecs s a).2.1) ::
              part i (outcomes classify codecs (attempt classify codecs s a).2.2 calls) := by
          simp [part, outcomes, hj]
        rw [hcalls, hout, strategyOutcomes, compress_autoComp, hattempt.1, hattempt.2, hrest]
        rfl
    · refine ⟨decisions, hpossible, ?_⟩
      have hcalls : part i ((j, a) :: calls) = part i calls := by
        simp [part, hj]
      have hout : part i (outcomes classify codecs s ((j, a) :: calls)) =
          part i (outcomes classify codecs (attempt classify codecs s a).2.2 calls) := by
        simp [part, outcomes, hj]
      rw [hcalls, hout, hrest]

end

theorem Answers.named {fitted : Fitted} {classify : Classifier}
    (hused : (usedFeatures fitted.nodes).length = 3) (h : Answers fitted.saved classify) :
    Named fitted.labels classify := by
  intro point
  obtain ⟨label, hlabel, hyields⟩ := fitted.represents.walk_saved point
  have hanswer := h point
  rw [(fitted.classify_saved point).1 hused] at hanswer
  exact ⟨label, List.mem_of_getElem? hlabel, hanswer.unique hyields⟩

/-- The tree that a file of three features gives answers every point. -/
theorem exists_answers {fitted : Fitted} (hused : (usedFeatures fitted.nodes).length = 3) :
    ∃ classify, Answers fitted.saved classify := by
  have hpoint : ∀ point : Fin 3 → Int, ∃ answer,
      Yields (fitted.saved.classify (List.ofFn point)) answer := by
    intro point
    obtain ⟨label, -, hyields⟩ := fitted.represents.walk_saved point
    use .ok label.meaning
    rwa [(fitted.classify_saved point).1 hused]
  choose answer hanswer using hpoint
  use fun point => answer fun i => point.getD i.val 0
  intro point
  have hsame : (fun i : Fin 3 => (List.ofFn point).getD i.val 0) = point := by
    funext i
    rw [List.getD_eq_getElem?_getD, List.getElem?_ofFn]
    simp
  change Yields _ (answer fun i : Fin 3 => (List.ofFn point).getD i.val 0)
  rw [hsame]
  exact hanswer point

/-- With a tree of all three features that was saved and read back, every call on every object, in
whatever order the process makes them, comes to something sound, and each object does what a strategy
with decisions of the tree does. -/
theorem adaptive_sound [DecidableEq ι] {codecs : Codecs} {libraries : Libraries}
    (hlibrary : codecs.library = libraries.library) (hdocumented : libraries.Documented)
    {fitted : Fitted} {allocates : Nat → Bool} {filename : ByteString} {text : ℚ → ByteString}
    {tree : DecisionTree}
    (htext : ∀ node ∈ fitted.nodes, ReadBack (text node.threshold) node.threshold)
    (hused : (usedFeatures fitted.nodes).length = 3)
    (hnew : DecisionTree.new allocates filename (some (fitted.file text)) = .ok tree) :
    ∃ classify, Answers tree classify ∧ ∀ calls : Calls ι, (∀ call ∈ calls, Counted call.2) →
      List.Forall₂ (fun call outcome => outcome.1 = call.1 ∧
          Sound codecs libraries fitted.labels call.2 outcome.2)
        calls (outcomes classify codecs .init calls) ∧
      ∀ i, ∃ decisions, (∀ n, Possible fitted.labels (decisions n)) ∧
        part i (outcomes classify codecs .init calls) =
          strategyOutcomes codecs (.autoComp decisions) (part i calls) := by
  obtain ⟨-, -, -, rfl⟩ := (new_saved allocates filename text htext tree).mp hnew
  obtain ⟨classify, hanswers⟩ := exists_answers hused
  have hnamed := hanswers.named hused
  refine ⟨classify, hanswers, ?_⟩
  intro calls hcalls
  constructor
  · exact outcomes_sound hnamed codecs hlibrary hdocumented .init hcalls
  · intro i
    exact part_outcomes hnamed codecs i .init calls

theorem adaptive_sound_storing : ∃ classify, Answers threeTests.saved classify ∧
    ∀ calls : Calls Object, (∀ call ∈ calls, Counted call.2) →
      List.Forall₂ (fun call outcome => outcome.1 = call.1 ∧
          Sound storingCodecs storingLibraries threeTests.labels call.2 outcome.2)
        calls (outcomes classify storingCodecs .init calls) ∧
      ∀ i, ∃ decisions, (∀ n, Possible threeTests.labels (decisions n)) ∧
        part i (outcomes classify storingCodecs .init calls) =
          strategyOutcomes storingCodecs (.autoComp decisions) (part i calls) := by
  have hnew : DecisionTree.new (fun _ => true) (ascii "tree.txt") (some (threeTests.file sampleText)) =
      .ok threeTests.saved :=
    (new_saved _ _ _ threeTests_read _).mpr ⟨by decide, by decide, ⟨rfl, rfl⟩, rfl⟩
  exact adaptive_sound rfl storingLibraries_documented threeTests_read (by decide) hnew

end Autocomp.AutoCompCompressor
