import VariantChess.Board.Diagram
import VariantChess.Game.History
import VariantChess.Proofs.Actions
import VariantChess.Proofs.Annals
import VariantChess.Proofs.Replay
import VariantChess.Proofs.Candidates
import VariantChess.Proofs.Castling
import VariantChess.Proofs.Checkmate
import VariantChess.Proofs.Counting
import VariantChess.Proofs.DecidedScores
import VariantChess.Proofs.Deepening
import VariantChess.Proofs.Encodings
import VariantChess.Proofs.EnPassant
import VariantChess.Proofs.Feasibility
import VariantChess.Proofs.ForeseenCaptures
import VariantChess.Proofs.KingSafety
import VariantChess.Proofs.KingStep
import VariantChess.Proofs.Progress
import VariantChess.Proofs.Promotion
import VariantChess.Proofs.Rejection
import VariantChess.Proofs.Rereading
import VariantChess.Proofs.PlainSearch
import VariantChess.Proofs.PlyExtent
import VariantChess.Proofs.Pruning
import VariantChess.Proofs.ScoreRange
import VariantChess.Proofs.SearchLog
import VariantChess.Proofs.MirroredPlay
import VariantChess.Proofs.TakeBack
import VariantChess.Proofs.TextbookStatus
import VariantChess.Proofs.ThreatHistory
import VariantChess.Proofs.Unchanged
import VariantChess.Proofs.UndoRedo
import VariantChess.Proofs.Window
import VariantChess.Proofs.WrittenMoves
