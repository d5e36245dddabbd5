import RemoteCodex.Remote.Recovery
import RemoteCodex.Wire.Shell

/-!
# Arguments of remote commands

What stands in the text of a command that a remote shell reads: each value as
one word, whatever is in it.
-/

namespace RemoteCodex.Connection

open Remote Wire Shell

/-- `quote`; a value with a NUL cannot be an argument. -/
def quote (value : String) : Except ClientError String :=
  if value.toList.contains '\x00' then .error .remoteResponse
  else
    .ok ("'" ++ String.ofList (value.toList.flatMap fun c => if c = '\'' then "'\"'\"'".toList else [c]) ++ "'")

/-- The command of `upload`. -/
def uploadCommand (destination : String) : Except ClientError String :=
  (quote destination).map fun quoted => "umask 077; set -C; cat > " ++ quoted

variable {value : String}

theorem quote_ok (h : '\x00' ∉ value.toList) : quote value = .ok (String.ofList (singleQuoted value.toList)) := by
  have hno : ¬ value.toList.contains '\x00' = true := fun hin => h (List.contains_iff_mem.mp hin)
  unfold quote
  rw [if_neg hno]
  congr 1
  rw [← String.toList_inj, String.toList_ofList]
  simp [singleQuoted]

theorem quotes_ok {values : List String} (h : ∀ value ∈ values, '\x00' ∉ value.toList) :
    values.mapM quote = .ok (values.map fun value => String.ofList (singleQuoted value.toList)) := by
  induction values with
  | nil => rfl
  | cons value values ih =>
    rw [List.mapM_cons, quote_ok (h value List.mem_cons_self), ih fun v hv => h v (List.mem_cons_of_mem _ hv)]
    rfl

theorem toList_intercalate (values : List String) :
    (" ".intercalate (values.map fun value => String.ofList (singleQuoted value.toList))).toList =
      joined (values.map String.toList) := by
  rw [String.toList_intercalate, joined, List.map_map, List.map_map]
  congr 1
  apply List.map_congr_left
  intro value _
  exact String.toList_ofList

/-- The value as the one word it is to be. -/
def argument (value : String) : Token := .word (value.toList.map .quoted)

/-- A quoted value is one word, the value itself, with nothing in it that is
expanded; and quoted values behind a command are its further arguments. -/
theorem quote_exact :
    (∀ value, '\x00' ∉ value.toList → ∃ text, quote value = .ok text ∧ tokenize text.toList = some [argument value]) ∧
      ∀ (command : String) (values : List String), (Lexer.start.run command.toList).mode = .plain →
        (∀ value ∈ values, '\x00' ∉ value.toList) →
        ∃ texts tokens, values.mapM quote = .ok texts ∧ tokenize command.toList = some tokens ∧
          tokenize (command ++ " " ++ " ".intercalate texts).toList = some (tokens ++ values.map argument) ∧
          ((Lexer.start.run command.toList).word = none →
            tokenize (command ++ " ".intercalate texts).toList = some (tokens ++ values.map argument)) := by
  constructor
  · intro value h
    refine ⟨_, quote_ok h, ?_⟩
    have hone := run_singleQuoted [] none value.toList
    unfold tokenize
    rw [String.toList_ofList, Lexer.start, hone]
    rfl
  · intro command values hmode h
    have hwords : (values.map String.toList).map (fun text => Token.word (text.map .quoted)) = values.map argument := by
      rw [List.map_map]
      rfl
    have hbehind : ∀ s : Lexer, s.mode = .plain → s.word = none →
        (s.run (joined (values.map String.toList))).mode = .plain ∧
          (s.run (joined (values.map String.toList))).flush.tokens = s.tokens ++ values.map argument := by
      rintro ⟨tokens, word, mode⟩ rfl rfl
      rw [← hwords]
      exact tokens_joined tokens (values.map String.toList)
    refine ⟨_, (Lexer.start.run command.toList).flush.tokens, quotes_ok h, ?_, ?_, ?_⟩
    · exact if_pos (.inl hmode)
    · have hblank : (Lexer.start.run command.toList).step ' ' = (Lexer.start.run command.toList).flush := by
        generalize Lexer.start.run command.toList = s at hmode
        obtain ⟨tokens, word, mode⟩ := s
        obtain rfl : mode = .plain := hmode
        rfl
      obtain ⟨hplain, htokens⟩ := hbehind (Lexer.start.run command.toList).flush hmode rfl
      unfold tokenize
      rw [String.toList_append, String.toList_append, toList_intercalate, Lexer.run_append, Lexer.run_append]
      simp only [String.reduceToList, Lexer.run_cons, Lexer.run_nil, hblank]
      rw [htokens]
      exact if_pos (.inl hplain)
    · intro hword
      obtain ⟨hplain, htokens⟩ := hbehind _ hmode hword
      have hflush : (Lexer.start.run command.toList).flush.tokens = (Lexer.start.run command.toList).tokens := by
        simp [Lexer.flush, hword]
      unfold tokenize
      rw [String.toList_append, toList_intercalate, Lexer.run_append, hflush, ← htokens]
      exact if_pos (.inl hplain)

/-- Whatever the destination is, the remote shell writes to this one file. -/
theorem uploadCommand_tokens (h : '\x00' ∉ value.toList) :
    ∃ text tokens, uploadCommand value = .ok text ∧ tokenize "umask 077; set -C; cat > ".toList = some tokens ∧
      tokenize text.toList = some (tokens ++ [argument value]) := by
  refine ⟨_, _, by rw [uploadCommand, quote_ok h]; rfl, rfl, ?_⟩
  have hlist : ("umask 077; set -C; cat > " ++ String.ofList (singleQuoted value.toList)).toList =
      "umask 077; set -C; cat > ".toList ++ singleQuoted value.toList := by
    rw [String.toList_append]
    congr 1
    exact String.toList_ofList
  rw [hlist]
  generalize hcommand : "umask 077; set -C; cat > ".toList = command
  have hstart : Lexer.start.run command = ⟨(Lexer.start.run command).tokens, none, .plain⟩ := by
    rw [← hcommand]
    decide
  unfold tokenize
  rw [Lexer.run_append, hstart, run_singleQuoted]
  simp [Lexer.flush, argument]

end RemoteCodex.Connection
