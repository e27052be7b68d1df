import StrategyTree.Main
import StrategyTree.Proofs.Lookup
import StrategyTree.Proofs.Outcome
import StrategyTree.Proofs.Tree.Contents
import StrategyTree.Proofs.Requirements.Gathered
import StrategyTree.Proofs.Evaluation.Reads
import StrategyTree.Proofs.Simulation.Run
import StrategyTree.Proofs.Simulation.BuildOrder
import StrategyTree.Proofs.Simulation.Levels
import StrategyTree.Proofs.BalanceCurve
import StrategyTree.Proofs.Simulation.Tables
import StrategyTree.Proofs.Causality.Prices
import StrategyTree.Proofs.Causality.NoLookAhead
import StrategyTree.Proofs.Prices.Days
import StrategyTree.Proofs.Prices.Alignment
import StrategyTree.Proofs.Prices.Loading
import StrategyTree.Proofs.Lookback.Indicators
import StrategyTree.Proofs.Lookback.Statistics
import StrategyTree.Proofs.Lookback.WholeRun
import StrategyTree.Proofs.Portfolio.Step
import StrategyTree.Proofs.Portfolio.Conservation
import StrategyTree.Proofs.Portfolio.TradeLog
import StrategyTree.Proofs.Simulation.Failures
import StrategyTree.Proofs.Evaluation.Fairness
import StrategyTree.Proofs.Simulation.Returns
import StrategyTree.Proofs.Lookback.Comparison
import StrategyTree.Proofs.StandAlone
import StrategyTree.Proofs.Causality.Sliding
import StrategyTree.Proofs.Causality.Recomputation
import StrategyTree.Proofs.Lookback.Dependence
import StrategyTree.Proofs.Evaluation.Weights
import StrategyTree.Proofs.Evaluation.Whole
import StrategyTree.Proofs.Simulation.Ranking
import StrategyTree.Proofs.Simulation.Placement
import StrategyTree.Proofs.Prices.Gaps
import StrategyTree.Proofs.Evaluation.Routes
import StrategyTree.Proofs.Scaling.Statistics
import StrategyTree.Proofs.Scaling.Portfolio
import StrategyTree.Proofs.Scaling.Backtest
import StrategyTree.Proofs.Simulation.BuyAndHold
import StrategyTree.Proofs.Requirements.Summary
import StrategyTree.Proofs.Simulation.Grouping
import StrategyTree.Proofs.Prices.Resolution
import StrategyTree.Proofs.Tree.RoundTrip
import StrategyTree.Proofs.Evaluation.Filtering
import StrategyTree.Proofs.Evaluation.InverseVolatility
import StrategyTree.Proofs.Prices.Carrying
import StrategyTree.Proofs.Portfolio.Interruption
import StrategyTree.Proofs.Portfolio.Borrowing
import StrategyTree.Proofs.Evaluation.Divisions
import StrategyTree.Proofs.Csv.Views
import StrategyTree.Proofs.Statistics.Falls
import StrategyTree.Proofs.Statistics.Strength
import StrategyTree.Proofs.Statistics.RiskFreeRate
import StrategyTree.Proofs.Tree.NewerDocuments
import StrategyTree.Proofs.Statistics.ExponentialMean
