import Mathlib.Data.List.Basic

namespace Replay

-- A program that reads its surroundings, and that goes on from what it has observed.
inductive Program (R O P : Type)
  | done (result : P)
  | read (r : R) (next : O → Program R O P)

-- What a run has read and observed, in its order, and what it ends in.
structure Run (R O P : Type) where
  reads  : List (R × O)
  result : P

variable {R O P : Type}

-- Runs that read the same, that observe the same at all reads that are not free, and that end in related results.
structure Run.Follows (rel : P → P → Prop) (free : R → Prop) (run run' : Run R O P) : Prop where
  reads    : run'.reads.map Prod.fst = run.reads.map Prod.fst
  observed : ∀ entry ∈ run.reads.zip run'.reads, ¬free entry.fst.fst → entry.snd.snd = entry.fst.snd
  result   : rel run.result run'.result

namespace Program

def run (observe : R → O) : Program R O P → Run R O P
  | .done result => ⟨[], result⟩
  | .read r next =>
    let rest := run observe (next (observe r))
    ⟨(r, observe r) :: rest.reads, rest.result⟩

variable {observe observe' : R → O} {p : Program R O P}

-- A run is repeated where each of its reads observes the same.
theorem run_congr (h : ∀ entry ∈ (p.run observe).reads, observe' entry.fst = observe entry.fst) :
    p.run observe' = p.run observe := by
  induction p
  case done result    => rfl
  case read r next hi =>
    rw [run] at h
    have hr : observe' r = observe r := h (r, observe r) (.head _)
    have hn := hi (observe r) fun entry he => h entry (.tail _ he)
    rw [run, run, hr, hn]

-- Programs that read the same whatever they observe, and that end in related results.
inductive Alike (rel : P → P → Prop) : Program R O P → Program R O P → Prop
  | done {a b : P} : rel a b → Alike rel (.done a) (.done b)
  | read {r : R} {next next' : O → Program R O P} :
    (∀ o, Alike rel (next o) (next' o)) → Alike rel (.read r next) (.read r next')

namespace Alike

variable {rel : P → P → Prop} {p q s : Program R O P}

theorem refl (h : ∀ a, rel a a) (p : Program R O P) : Alike rel p p := by
  induction p
  case done result    => exact .done (h result)
  case read r next hi => exact .read hi

theorem trans (h : ∀ a b c, rel a b → rel b c → rel a c) (hp : Alike rel p q) (hq : Alike rel q s) :
    Alike rel p s := by
  induction hp generalizing s
  case done hab    =>
    cases hq
    case done hbc => exact .done (h _ _ _ hab hbc)
  case read _ hi   =>
    cases hq
    case read hq => exact .read fun o => hi o (hq o)

end Alike

-- A run that goes on in the same way whatever it observes at its free reads.
def Steady (rel : P → P → Prop) (free : R → Prop) (observe : R → O) : Program R O P → Prop
  | .done _      => True
  | .read r next => (free r → ∀ o, Alike rel (next (observe r)) (next o)) ∧
    Steady rel free observe (next (observe r))

theorem Alike.follows {rel : P → P → Prop} {free : R → Prop} {q : Program R O P}
    (ht : ∀ a b c, rel a b → rel b c → rel a c) (hq : Alike rel p q) (hs : p.Steady rel free observe)
    (h : ∀ entry ∈ (p.run observe).reads, ¬free entry.fst → observe' entry.fst = observe entry.fst) :
    (p.run observe).Follows rel free (q.run observe') := by
  induction p generalizing q
  case done result    =>
    cases hq
    case done hr => exact ⟨rfl, fun entry he => absurd he List.not_mem_nil, hr⟩
  case read r next hi =>
    cases hq
    case read next' hn =>
      rw [run] at h
      -- the second run goes on as the first one would have gone on from what the second one observes
      have ha : Alike rel (next (observe r)) (next' (observe' r)) := by
        by_cases hf : free r
        case pos => exact (hs.left hf (observe' r)).trans ht (hn (observe' r))
        case neg => exact h (r, observe r) (.head _) hf ▸ hn (observe' r)
      have hrest := hi (observe r) ha hs.right fun entry he => h entry (.tail _ he)
      refine ⟨congrArg (r :: ·) hrest.reads, fun entry he hf => ?_, hrest.result⟩
      cases List.mem_cons.mp he
      case inl he =>
        rw [he] at hf ⊢
        exact h (r, observe r) (.head _) hf
      case inr he => exact hrest.observed entry he hf

end Program

end Replay
