import IdBasedEncryption.SlidingWindow
import IdBasedEncryption.NonAdjacentForm
import IdBasedEncryption.Gmp
import IdBasedEncryption.Fp2Arith
import IdBasedEncryption.Fp2Value
import IdBasedEncryption.CurvePoints
import IdBasedEncryption.TatePairing
import IdBasedEncryption.CurveDivisors
import IdBasedEncryption.MillerFunctions
import IdBasedEncryption.MordellCurve
import IdBasedEncryption.LineReciprocity
import IdBasedEncryption.ReducedTate
import IdBasedEncryption.FieldExtension
import IdBasedEncryption.MordellGroup
import IdBasedEncryption.Nondegenerate
import IdBasedEncryption.TopCoefficient
import IdBasedEncryption.TorsionPolynomials
import IdBasedEncryption.SolinasForm
import IdBasedEncryption.CyclicTorsion
import IdBasedEncryption.ModifiedPairing
import IdBasedEncryption.PointValues
import IdBasedEncryption.PointAddition
import IdBasedEncryption.GeneralMultiples
import IdBasedEncryption.CofactorMultiples
import IdBasedEncryption.DecodedPoints
import IdBasedEncryption.UniqueSignatures
import IdBasedEncryption.AggregateSignatures
import IdBasedEncryption.SignatureForgeries
import IdBasedEncryption.MillerLines
import IdBasedEncryption.MillerLoops
import IdBasedEncryption.MillerCaches
import IdBasedEncryption.PairingValues
import IdBasedEncryption.MultipleBounds
import IdBasedEncryption.Multiples
import IdBasedEncryption.ScalarMultiples
import IdBasedEncryption.ByteStrings
import IdBasedEncryption.PointBytes
import IdBasedEncryption.IbeLib
import IdBasedEncryption.PairingLaws
import IdBasedEncryption.SharedSecrets
import IdBasedEncryption.KeyEncapsulation
import IdBasedEncryption.ConjugatePairings
import IdBasedEncryption.OriginPairings
import IdBasedEncryption.MillerZeros
import IdBasedEncryption.BilinearMaps
import IdBasedEncryption.KeyAgreement
import IdBasedEncryption.Interpolation
import IdBasedEncryption.MasterShares
import IdBasedEncryption.ThresholdKeys
import IdBasedEncryption.IncrementalStreams
import IdBasedEncryption.Crypto
import IdBasedEncryption.DecryptionStreams
import IdBasedEncryption.AuthenticatedStreams
import IdBasedEncryption.FuelLoops
import IdBasedEncryption.Stdio
import IdBasedEncryption.WholeLines
import IdBasedEncryption.Base64
import IdBasedEncryption.Format
import IdBasedEncryption.StreamTermination
import IdBasedEncryption.CryptFiles
import IdBasedEncryption.RecipientSearch
import IdBasedEncryption.MessageFiles
import IdBasedEncryption.MisreadFiles
import IdBasedEncryption.SavedStrings
import IdBasedEncryption.CombineCommand
import IdBasedEncryption.CongruentPoints
import IdBasedEncryption.ArbitraryShares
import IdBasedEncryption.ArrayDecoding
import IdBasedEncryption.HashNumbers
import IdBasedEncryption.SolinasSearch
import IdBasedEncryption.ParamsBytes
import IdBasedEncryption.ParamsRoundTrip
import IdBasedEncryption.PointEncodings
import IdBasedEncryption.ReadTraces
import IdBasedEncryption.Fp2Cells
import IdBasedEncryption.PowerCells
import IdBasedEncryption.DistortionMap
import IdBasedEncryption.PkgHtml
import IdBasedEncryption.FormFields
import IdBasedEncryption.IdStrings
import IdBasedEncryption.BannedList
import IdBasedEncryption.AccessTraces
import IdBasedEncryption.InPlaceDecoding
import IdBasedEncryption.SessionWrites
import IdBasedEncryption.SessionBounds
import IdBasedEncryption.Request
import IdBasedEncryption.RequestAgreement
import IdBasedEncryption.AssocLists
import IdBasedEncryption.Config
import IdBasedEncryption.ConfigStore
import IdBasedEncryption.ConfigFiles
import IdBasedEncryption.ConfigRoundTrip
import IdBasedEncryption.ShareCollection
import IdBasedEncryption.GeneralMiller
import IdBasedEncryption.MillerRatios
import IdBasedEncryption.EvaluatedLines
import IdBasedEncryption.NonzeroLines
import IdBasedEncryption.MillerSteps
import IdBasedEncryption.SlidingMiller
import IdBasedEncryption.MillerAgreement
import IdBasedEncryption.ProjectiveFormulas
import IdBasedEncryption.WindowSchedule
import IdBasedEncryption.CubeRoots
import IdBasedEncryption.RandomPoints
import IdBasedEncryption.ByteStringLaws
import IdBasedEncryption.SlopeFormulas
import IdBasedEncryption.HiddenKeys
import IdBasedEncryption.MailedMessages
import IdBasedEncryption.KeyShareMails
import IdBasedEncryption.SetupOutcome
import IdBasedEncryption.MasterFiles
import IdBasedEncryption.Generation
import IdBasedEncryption.CertifiedSignatures
import IdBasedEncryption.Transcripts
import IdBasedEncryption.TypedParams
import IdBasedEncryption.SavedParams
import IdBasedEncryption.Handshakes
import IdBasedEncryption.ConcurrentChecks
import IdBasedEncryption.DebugCommands
import IdBasedEncryption.ScriptRuns
import IdBasedEncryption.InfectLetters
import IdBasedEncryption.Deployments
import IdBasedEncryption.RandomDraws
import IdBasedEncryption.SignCommands
