import CommandText.Proofs.ArgumentOrder
import CommandText.Proofs.BracketReaders
import CommandText.Proofs.CommandStarts
import CommandText.Proofs.ConservedTokens
import CommandText.Proofs.ContainedToken
import CommandText.Proofs.ContainmentLoops
import CommandText.Proofs.FreeLabels
import CommandText.Proofs.FurtherTexts
import CommandText.Proofs.KeptComments
import CommandText.Proofs.LinkSpans
import CommandText.Proofs.OfferedValues
import CommandText.Proofs.OpenPathLines
import CommandText.Proofs.PrintedStatements
import CommandText.Proofs.ProxyTargets
import CommandText.Proofs.SeamReading
import CommandText.Proofs.ToldOnce
import CommandText.Proofs.TypedCompletion
