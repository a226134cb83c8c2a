import LexicalLisp.Main
import LexicalLisp.Proofs.Completions.Names
import LexicalLisp.Proofs.Console.KeepGoing
import LexicalLisp.Proofs.Console.LineByLine
import LexicalLisp.Proofs.Evaluation.ActiveForms
import LexicalLisp.Proofs.Evaluation.Changes
import LexicalLisp.Proofs.Evaluation.Discipline
import LexicalLisp.Proofs.Evaluation.Exactness
import LexicalLisp.Proofs.Evaluation.FrameEffect
import LexicalLisp.Proofs.Evaluation.Genuine
import LexicalLisp.Proofs.Evaluation.History
import LexicalLisp.Proofs.Evaluation.Order
import LexicalLisp.Proofs.Evaluation.Quotes
import LexicalLisp.Proofs.Evaluation.Relevance
import LexicalLisp.Proofs.Evaluation.Repeatable
import LexicalLisp.Proofs.Evaluation.Scope
import LexicalLisp.Proofs.Forms.CoreForms
import LexicalLisp.Proofs.Forms.Renaming
import LexicalLisp.Proofs.Forms.Restriction
import LexicalLisp.Proofs.Forms.Spelling
import LexicalLisp.Proofs.Frames.Listings
import LexicalLisp.Proofs.Outlines.Columns
import LexicalLisp.Proofs.Outlines.Lossless
import LexicalLisp.Proofs.Reading.Acceptance
import LexicalLisp.Proofs.Reading.Grammar
import LexicalLisp.Proofs.Reading.Incomplete
import LexicalLisp.Proofs.Reading.Positions
import LexicalLisp.Proofs.Reading.RoundTrip
import LexicalLisp.Proofs.Sessions.Answers
import LexicalLisp.Proofs.Sessions.Readback
import LexicalLisp.Proofs.Sessions.Reset
import LexicalLisp.Proofs.Sessions.Stages
import LexicalLisp.Proofs.Sessions.Texts
